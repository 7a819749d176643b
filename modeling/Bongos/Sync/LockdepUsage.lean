import Bongos.Sync.LockdepOrder

/-!
# The interrupt usage of lock classes

A class that is taken in a hard interrupt handler must not be held with interrupts enabled outside
of one. `Usage` is what happened to each class, as the events and the locks held then say it, and
`usageBit` what the validator wrote down. An acquire is checked before it is recorded, but the check
stops at the first finding, so one that is reported as an overflow or as a recursion is recorded
without a look at its usage. The release of a lock whose acquire overflowed is not seen.
-/

namespace Bongos.Sync

open List Function

/-! ## Uses -/

/-- What may happen to a class: it is taken in a hard interrupt handler, or held with interrupts
enabled in process context. -/
inductive IrqUse where
  | inHardirq
  | irqsOn
  deriving DecidableEq

/-- The bit of `usageMask` for a use. -/
def IrqUse.bit : IrqUse → ℕ
  | .inHardirq => LOCKDEP_USAGE_IN_HARDIRQ
  | .irqsOn => LOCKDEP_USAGE_IRQS_ON

/-- The use that must not meet this one. -/
def IrqUse.other : IrqUse → IrqUse
  | .inHardirq => .irqsOn
  | .irqsOn => .inHardirq

/-- How an acquire uses its class. -/
def acquireUse (irqCtx : BitVec 8) (irqsOn : Bool) : Option IrqUse :=
  if irqCtx ≠ 0 then some .inHardirq else if irqsOn then some .irqsOn else none

/-- How a release uses the class of its lock, which was held until now. -/
def releaseUse (irqCtx : BitVec 8) (irqsOn : Bool) : Option IrqUse :=
  if irqCtx = 0 ∧ irqsOn then some .irqsOn else none

/-- The latest holding of a lock that is followed. -/
def HeldLocks.latest (l : HeldLocks) (cpu «instance» : ℕ) : Option LockdepHeld :=
  (l.held cpu).find? (·.instance = «instance»)

/-- The class that an event uses, and how, with the locks that are held before it. A release of a
lock that is not followed is not seen. -/
def LockdepEvent.use (l : HeldLocks) : LockdepEvent → ℕ × Option IrqUse
  | .classOf _ _ => (0, none)
  | .acquire _ _ c irqCtx irqsOn _ => (c, acquireUse irqCtx irqsOn)
  | .release cpu inst irqsOn =>
    match l.latest cpu inst with
    | none => (0, none)
    | some h => (h.classId, releaseUse h.irqCtx irqsOn)

/-- The classes that were used in each way. -/
abbrev Usage := IrqUse → Set ℕ

/-- A class is used. -/
def Usage.mark (u : Usage) (use : ℕ × Option IrqUse) : Usage :=
  fun k => {a | a ∈ u k ∨ a = use.1 ∧ use.2 = some k}

/-- The class was used in both ways. -/
def Usage.Both (u : Usage) (c : ℕ) : Prop := ∀ k, c ∈ u k

variable {g : LockdepGraph} {w : LockdepWorld} {l : HeldLocks} {e : LockdepEvent} {c c' inst : ℕ}
  {k : IrqUse} {use : ℕ × Option IrqUse} {irqCtx : BitVec 8} {irqsOn trylock : Bool}

/-- The use that makes its class be used in both ways meets the other one. -/
theorem Usage.both_mark_iff {u : Usage} (hfirst : ¬ u.Both use.1) :
    (u.mark use).Both use.1 ↔ ∃ k, use.2 = some k ∧ use.1 ∈ u k.other := by
  have hboth : ∀ v : Usage, v.Both use.1 ↔ use.1 ∈ v .inHardirq ∧ use.1 ∈ v .irqsOn := fun v =>
    ⟨fun h => ⟨h _, h _⟩, fun h k => by cases k; exacts [h.1, h.2]⟩
  rw [hboth] at hfirst ⊢
  simp only [Usage.mark, Set.mem_ofPred_eq, true_and]
  constructor
  · rintro ⟨hhard | hhard, hon | hon⟩
    · exact absurd ⟨hhard, hon⟩ hfirst
    · exact ⟨_, hon, hhard⟩
    · exact ⟨_, hhard, hon⟩
    · rw [hhard] at hon
      cases hon
  · rintro ⟨k, hk, hother⟩
    cases k with
    | inHardirq => exact ⟨.inr hk, .inl hother⟩
    | irqsOn => exact ⟨.inl hother, .inr hk⟩

/-- A lock that is followed after an event was followed before, or acquired. -/
theorem HeldLocks.mem_after {cpu : ℕ} {h : LockdepHeld} (hh : h ∈ (l.after e).held cpu) :
    h ∈ l.held cpu ∨ e.use l = (h.classId, acquireUse h.irqCtx h.irqsOn) := by
  have hupdate : ∀ {cpu' held'}, h ∈ update l.held cpu' held' cpu → h ∈ l.held cpu ∨
      cpu = cpu' ∧ h ∈ held' := fun {cpu' held'} hh => by
    by_cases hcpu : cpu = cpu'
    · rw [hcpu, update_self] at hh
      exact .inr ⟨hcpu, hh⟩
    · rw [update_of_ne hcpu] at hh
      exact .inl hh
  cases e with
  | classOf => exact .inl hh
  | acquire cpu' inst c irqCtx irqsOn trylock =>
    simp only [HeldLocks.after] at hh
    split_ifs at hh
    · rcases hupdate hh with hold | ⟨rfl, hh⟩
      · exact .inl hold
      · rcases mem_cons.1 hh with rfl | hold
        · exact .inr rfl
        · exact .inl hold
    · exact .inl hh
  | release cpu' inst irqsOn =>
    simp only [HeldLocks.after] at hh
    split_ifs at hh
    · rcases hupdate hh with hold | ⟨rfl, hh⟩
      · exact .inl hold
      · exact .inl (mem_of_mem_eraseP hh)
    · exact .inl hh

/-! ## The bits -/

/-- The bit of a class for a use. -/
def usageBit (g : LockdepGraph) (classId : ℕ) (k : IrqUse) : Bool :=
  (g.classes.getD (classId - 1) ⟨0, 0, 0⟩).usageMask.getLsbD k.bit

theorem usageBit_markUsage (hc : 0 < c ∧ c ≤ g.classes.length) (hc' : 0 < c') {k' : IrqUse} :
    usageBit (markUsage g c k.bit) c' k' = true ↔
      usageBit g c' k' = true ∨ c' = c ∧ some k = some k' := by
  have hbit : ∀ m : BitVec 8, (m ||| 1#8 <<< k.bit).getLsbD k'.bit = true ↔
      m.getLsbD k'.bit = true ∨ k = k' := by
    cases k <;> cases k' <;> decide
  simp only [usageBit, markUsage, getD_eq_getElem?_getD, getElem?_modify]
  by_cases h : c' = c
  · subst h
    have hlt : c' - 1 < g.classes.length := by omega
    simp only [if_true, getElem?_eq_getElem hlt, Option.map_eq_map, Option.map_some,
      Option.getD_some, hbit, true_and, Option.some.injEq]
  · have hne : ¬ c - 1 = c' - 1 := by omega
    simp [h, hne]

/-- A class has no bits when it is registered, and had none before. -/
theorem usageBit_classOf (hg : g.classes.length ≤ LOCKDEP_MAX_CLASSES) (key name : ℕ) :
    usageBit (lockdepCoreClassOf g key name).2.2 c k = usageBit g c k := by
  rcases lockdepCoreClassOf_cases hg key name with h | ⟨-, h⟩
  · rw [h]
  · rw [h]
    simp only [usageBit, getD_eq_getElem?_getD, getElem?_append]
    split_ifs with hlt
    · rfl
    · rw [getElem?_eq_none (not_lt.1 hlt)]
      cases c - 1 - g.classes.length <;> rfl

theorem usageBit_congr {g' : LockdepGraph} (h : g'.classes = g.classes) :
    usageBit g' c k = usageBit g c k := by
  rw [usageBit, usageBit, h]

/-- The edges and the scratch are apart from the classes. -/
theorem lockdepAcquireCore_classes (hs : LockdepHeldStack) :
    (lockdepAcquireCore g hs inst c irqCtx irqsOn trylock).1.classes =
      (markAcquire g c irqCtx irqsOn).classes := by
  obtain ⟨bfs, hcheck⟩ := lockdepCoreCheckAcquire_scratch g hs inst c irqCtx irqsOn trylock
  have hmark : (markAcquire { g with bfs := bfs } c irqCtx irqsOn).classes =
      (markAcquire g c irqCtx irqsOn).classes := by
    unfold markAcquire
    split_ifs <;> rfl
  rw [← hmark, ← hcheck, lockdepAcquireCore]
  dsimp only
  rw [lockdepCoreCommitAcquire_graph]
  split_ifs
  · exact commitEdges_classes ..
  · rfl

/-- An event writes its use down. -/
theorem usageBit_next (v : LockdepInv w) (hl : l.Tracked w) (he : e.Legal w) (hc : 0 < c) :
    usageBit (e.next w).graph c k = true ↔
      usageBit w.graph c k = true ∨ c = (e.use l).1 ∧ (e.use l).2 = some k := by
  cases e with
  | classOf key name =>
    simp [LockdepEvent.next, LockdepEvent.use, usageBit_classOf v.tables.classes_le]
  | acquire cpu inst c' irqCtx irqsOn trylock =>
    simp only [LockdepEvent.next, LockdepEvent.use, usageBit_congr (lockdepAcquireCore_classes ..)]
    unfold markAcquire acquireUse
    split_ifs
    · exact usageBit_markUsage (k := .inHardirq) he hc
    · exact usageBit_markUsage (k := .irqsOn) he hc
    · simp
  | release cpu inst irqsOn =>
    obtain ⟨g, hs⟩ := w
    obtain rfl : hs = reverse ∘ l.held := hl
    simp only [LockdepEvent.next, LockdepEvent.use, HeldLocks.latest, lockdepCoreCommitRelease,
      comp_apply]
    rcases heldFind_cases (l.held cpu) inst with
      ⟨hno, hfind⟩ | ⟨h, before, after, hlatest, -, -, -, hfind, hget⟩
    · simp [hno, hfind]
    · simp only [hlatest, hfind, hget, releaseUse]
      split_ifs
      · exact usageBit_markUsage (k := .irqsOn) (v.held cpu h (mem_of_getElem? hget)) hc
      · simp

/-! ## The checks -/

/-- The interrupt check finds a class that was used in the other kind of context. -/
theorem irqConflict_isSome : (irqConflict g c irqCtx irqsOn).isSome = true ↔
      ∃ k, acquireUse irqCtx irqsOn = some k ∧ usageBit g c k.other = true := by
  unfold irqConflict acquireUse
  by_cases hctx : irqCtx = 0
  · cases irqsOn <;> simp [hctx, usageBit, IrqUse.other, IrqUse.bit, apply_ite]
  · simp only [hctx, ne_eq, not_false_eq_true, true_and, false_and, if_true, if_false,
      Option.some.injEq, exists_eq_left', usageBit, IrqUse.other, IrqUse.bit]
    split_ifs with h
    · exact iff_of_true rfl h
    · exact iff_of_false Bool.false_ne_true h

/-- The verdict of the check of an acquire or of a release. -/
def LockdepEvent.verdict (w : LockdepWorld) : LockdepEvent → LockdepVerdict
  | .classOf _ _ => .ok
  | .acquire cpu inst c irqCtx irqsOn trylock =>
    verdictOf (lockdepCoreCheckAcquire w.graph (w.held cpu) inst c irqCtx irqsOn trylock).1
  | .release cpu inst irqsOn => verdictOf (lockdepCoreCheckRelease w.graph (w.held cpu) inst irqsOn)

/-- An acquire that is not stopped by an overflow or a recursion has its usage checked. -/
theorem check_irqInconsistent_iff {hs : LockdepHeldStack}
    (hv : verdictOf (lockdepCoreCheckAcquire g hs inst c irqCtx irqsOn trylock).1 ∉
      [LockdepVerdict.heldOverflow, .recursion]) :
    verdictOf (lockdepCoreCheckAcquire g hs inst c irqCtx irqsOn trylock).1 =
      .irqInconsistent ↔ (irqConflict g c irqCtx irqsOn).isSome = true := by
  have hends := lockdepCoreCheckAcquire_ends g hs inst c irqCtx irqsOn trylock
  generalize lockdepCoreCheckAcquire g hs inst c irqCtx irqsOn trylock = r at hends hv ⊢
  cases hends with
  | early hf => exact absurd hf hv
  | conflict hf => simp [verdictOf, irqConflict_kind hf, hf]
  | passed hf => simp [verdictOf, hf]
  | loop hf _ hloop =>
    have hverdict := hloop.verdict
    simp only [hf, Option.isSome_none, Bool.false_eq_true, iff_false]
    intro hinc
    rw [hinc] at hverdict
    revert hverdict
    decide

/-- The check of a release looks at the latest holding of the lock. -/
theorem checkRelease_verdict (held : List LockdepHeld) : verdictOf (lockdepCoreCheckRelease g held.reverse inst irqsOn) =
      match held.find? (·.instance = inst) with
      | none => .notHeld
      | some h => if h.irqCtx = 0 ∧ h.irqsOn = false ∧ irqsOn = true ∧
          usageBit g h.classId .inHardirq = true then .irqInconsistent else .ok := by
  unfold lockdepCoreCheckRelease
  rcases heldFind_cases held inst with
    ⟨hno, hfind⟩ | ⟨h, before, after, hlatest, -, -, -, hfind, hget⟩
  · rw [hno, hfind]
    rfl
  · simp only [hlatest, hfind, hget]
    exact apply_ite verdictOf _ _ _

/-! ## What happened -/

/-- The validator, the held locks, what happened, and the verdict on each event, with its class. -/
structure UsageWorld where
  base : LockdepWorld
  locks : HeldLocks
  usage : Usage
  log : List (ℕ × LockdepVerdict)

def usageNext (w : UsageWorld) (e : LockdepEvent) : UsageWorld where
  base := e.next w.base
  locks := w.locks.after e
  usage := w.usage.mark (e.use w.locks)
  log := ((e.use w.locks).1, e.verdict w.base) :: w.log

/-- One step: a class is looked up, or the check and the record of an acquire or of a release. -/
def UsageStep (w w' : UsageWorld) : Prop := ∃ e, e.Legal w.base ∧ usageNext w e = w'

/-- The all-zero graph; nothing happened yet. -/
def UsageWorld.init : UsageWorld := ⟨.init, .none, fun _ => ∅, []⟩

/-- What the validator has written down and reported. -/
structure UsageSeen (w : UsageWorld) : Prop where
  /-- The bits say what happened. -/
  bits : ∀ c k, 0 < c → (usageBit w.base.graph c k = true ↔ c ∈ w.usage k)
  /-- A class that was used in both ways was reported, for its usage or for something that comes
  before it. -/
  reported : ∀ c, w.usage.Both c →
    ∃ v ∈ [LockdepVerdict.irqInconsistent, .heldOverflow, .recursion], (c, v) ∈ w.log

/-- What every step keeps. -/
structure UsageInv (w : UsageWorld) : Prop extends UsageSeen w where
  base : LockdepInv w.base
  tracked : w.locks.Tracked w.base
  held : ∀ cpu, ∀ h ∈ w.locks.held cpu, ∀ k, acquireUse h.irqCtx h.irqsOn = some k →
    h.classId ∈ w.usage k

theorem UsageInv.init : UsageInv .init :=
  ⟨⟨fun c k _ =>
      iff_of_false (by simp [usageBit, UsageWorld.init, LockdepWorld.init, LockdepGraph.zero]) id,
    fun c hc => (hc .irqsOn).elim⟩, .init, rfl, fun cpu h hh => (not_mem_nil hh).elim⟩

variable {w w' : UsageWorld}

/-- An event makes its class be used in both ways exactly if it is reported. -/
theorem UsageInv.first_iff (v : UsageInv w) (he : e.Legal w.base)
    (hfirst : ¬ w.usage.Both (e.use w.locks).1)
    (hv : e.verdict w.base ∉ [LockdepVerdict.heldOverflow, .recursion]) :
    e.verdict w.base = .irqInconsistent ↔
      (w.usage.mark (e.use w.locks)).Both (e.use w.locks).1 := by
  rw [Usage.both_mark_iff hfirst]
  cases e with
  | classOf key name => simp [LockdepEvent.verdict, LockdepEvent.use]
  | acquire cpu inst c irqCtx irqsOn trylock =>
    refine (check_irqInconsistent_iff hv).trans ((irqConflict_isSome ..).trans ?_)
    exact exists_congr fun k => and_congr_right fun _ => v.bits c k.other he.1
  | release cpu inst irqsOn =>
    have hheld := congrFun v.tracked cpu
    simp only [LockdepEvent.verdict, LockdepEvent.use, hheld, comp_apply, checkRelease_verdict,
      HeldLocks.latest] at hfirst ⊢
    cases hlatest : (w.locks.held cpu).find? (·.instance = inst) with
    | none => simp
    | some h =>
      rw [hlatest] at hfirst
      have hmem := mem_of_find?_eq_some hlatest
      have hc := v.base.held cpu h (by rw [hheld]; exact mem_reverse.2 hmem)
      have hbit := v.bits h.classId .inHardirq hc.1
      simp only [releaseUse]
      constructor
      · intro hif
        split_ifs at hif with hcond
        exact ⟨.irqsOn, if_pos ⟨hcond.1, hcond.2.2.1⟩, hbit.1 hcond.2.2.2⟩
      · rintro ⟨k, hk, hother⟩
        split_ifs at hk with hcond
        cases hk
        refine if_pos ⟨hcond.1, ?_, hcond.2, hbit.2 hother⟩
        -- Taken with interrupts enabled, the class would have been used so already.
        by_contra hon
        have huse := v.held cpu h hmem .irqsOn (by simp [acquireUse, hcond.1, hon])
        exact hfirst fun k => by cases k; exacts [hother, huse]

theorem UsageInv.step (v : UsageInv w) (h : UsageStep w w') : UsageInv w' := by
  obtain ⟨e, he, rfl⟩ := h
  refine ⟨⟨fun c k hc => ?_, fun c hboth => ?_⟩, v.base.next he, v.tracked.next e,
    fun cpu h hh k hk => ?_⟩
  · exact (usageBit_next v.base v.tracked he hc).trans (or_congr_left (v.bits c k hc))
  · by_cases hold : w.usage.Both c
    · obtain ⟨r, hr, hmem⟩ := v.reported c hold
      exact ⟨r, hr, mem_cons_of_mem _ hmem⟩
    -- It is the class of this event, whose check came to the usage or ended before it.
    have hclass : c = (e.use w.locks).1 := by
      by_contra hne
      exact hold fun k => (hboth k).resolve_right fun h => hne h.1
    subst hclass
    refine ⟨e.verdict w.base, ?_, mem_cons_self⟩
    by_cases hv : e.verdict w.base ∈ [LockdepVerdict.heldOverflow, .recursion]
    · exact mem_cons_of_mem _ hv
    · rw [(v.first_iff he hold hv).2 hboth]
      exact mem_cons_self
  · rcases HeldLocks.mem_after hh with hold | hnew
    · exact .inl (v.held cpu h hold k hk)
    · exact .inr (by rw [hnew]; exact ⟨rfl, hk⟩)

/-- What the validator promises about interrupts. -/
structure UsageExact (w : UsageWorld) : Prop extends UsageSeen w where
  /-- The first event after which a class was used in both ways is reported, and no other. -/
  first : ∀ e : LockdepEvent, e.Legal w.base → ¬ w.usage.Both (e.use w.locks).1 →
    e.verdict w.base ∉ [LockdepVerdict.heldOverflow, .recursion] →
    (e.verdict w.base = .irqInconsistent ↔ (w.usage.mark (e.use w.locks)).Both (e.use w.locks).1)
  /-- A release is reported as one of a lock that is not held exactly if the lock is not
  followed. -/
  notHeld : ∀ cpu «instance» irqsOn,
    (LockdepEvent.release cpu «instance» irqsOn).verdict w.base = .notHeld ↔
      ∀ h ∈ w.locks.held cpu, h.instance ≠ «instance»

/-- **Interrupt usage is consistent.** In every run of checks and records, a class has both usage
bits only if one of its acquires or releases was reported, as inconsistent or, before the usage was
looked at, as an overflow or a recursion; and the first event that makes a class be used in both
ways is reported as inconsistent unless it is one of those. -/
theorem lockdep_usageExact (hrun : Run UsageStep .init w) : UsageExact w := by
  have v : UsageInv w := hrun.invariant .init UsageInv.step
  refine ⟨v.toUsageSeen, fun e => v.first_iff, fun cpu inst irqsOn => ?_⟩
  simp only [LockdepEvent.verdict, congrFun v.tracked cpu, comp_apply, checkRelease_verdict]
  cases hlatest : (w.locks.held cpu).find? (·.instance = inst) with
  | none => exact iff_of_true rfl (by simpa using hlatest)
  | some h =>
    refine iff_of_false ?_ fun hall => ?_
    · dsimp only
      split_ifs <;> decide
    · exact hall h (mem_of_find?_eq_some hlatest) (by simpa using find?_some hlatest)

/-- The validator and what happened after some events. -/
def usageAfter (es : List LockdepEvent) : UsageWorld := es.foldl usageNext .init

theorem run_usageAfter (es : List LockdepEvent)
    (h : AllAllowed (fun w e => e.Legal w.base) usageNext .init es) :
    Run UsageStep .init (usageAfter es) := h.run

/-- A class is taken in a handler, and a lock of it is held from a time with interrupts disabled to
one with interrupts enabled: its release is reported. -/
theorem lockdep_usageExact_reenabled : let w := usageAfter [.classOf 7 7,
      .acquire 0 10 1 1 false false, .release 0 10 false, .acquire 0 11 1 0 false false]
    UsageExact w ∧ LockdepEvent.verdict w.base (.release 0 11 true) = .irqInconsistent ∧
      (usageNext w (.release 0 11 true)).usage.Both 1 := by
  have hexact := lockdep_usageExact (run_usageAfter [.classOf 7 7, .acquire 0 10 1 1 false false,
    .release 0 10 false, .acquire 0 11 1 0 false false] (by decide +kernel))
  have hfirst : ¬ Usage.Both _ 1 :=
    fun hboth => absurd (hexact.reported 1 hboth) (by decide +kernel)
  refine ⟨hexact, by decide +kernel, (hexact.first (.release 0 11 true) trivial hfirst ?_).1 ?_⟩
  · decide +kernel
  · decide +kernel

/-- Two locks of one class: the second is taken with interrupts enabled while the first is held, and
reported as a recursion. The class has both bits, and no verdict was about its usage. -/
theorem lockdep_recursion_hides_usage : ∃ w, Run UsageStep .init w ∧
    (∀ k, usageBit w.base.graph 1 k = true) ∧ ∀ e ∈ w.log, e.2 ≠ .irqInconsistent := by
  refine ⟨_, run_usageAfter [.classOf 7 7, .acquire 0 10 1 1 false false, .release 0 10 false,
    .acquire 0 20 1 0 false false, .acquire 0 21 1 0 true false] (by decide +kernel), fun k => ?_,
    by decide +kernel⟩
  cases k <;> decide +kernel

end Bongos.Sync
