import Bongos.Run
import Bongos.Sync.LockdepSearch
import Mathlib.Data.Set.Insert

/-!
# The recorded lock order

After every sequence of acquires and releases, on any number of CPUs, the recorded order has no
cycle, the matrix and the table of edges agree, and an acquire is reported as an inversion exactly
when recording it would close a cycle. The graph is shared by the CPUs, each of which has its own
stack of held locks.
-/

namespace Bongos.Sync

open GraphSearch Relation List Function

/-! ## The matrix and the table of edges -/

/-- The matrix and the table record the same edges, each once, between registered classes. -/
structure Tables (g : LockdepGraph) : Prop where
  classes_le : g.classes.length ≤ LOCKDEP_MAX_CLASSES
  nodup : g.edges.Nodup
  mem_iff : ∀ a b, 0 < a → 0 < b → (adjTest g a b = true ↔ ⟨a, b⟩ ∈ g.edges)
  valid : ∀ e ∈ g.edges, (0 < e.from ∧ e.from ≤ g.classes.length) ∧
    0 < e.to ∧ e.to ≤ g.classes.length

variable {g g' : LockdepGraph} {classId a b : ℕ} {irqCtx : BitVec 8}

theorem Tables.adjValid (t : Tables g) : AdjValid g := fun a b h => by
  have hv := t.valid _ ((t.mem_iff a b h.1 h.2.1).1 h.2.2)
  exact ⟨hv.1.2.trans t.classes_le, hv.2.2.trans t.classes_le⟩

theorem Tables.zero : Tables .zero :=
  ⟨Nat.zero_le _, nodup_nil, by simp [LockdepGraph.zero, adjTest], by simp [LockdepGraph.zero]⟩

/-- The order and the classes are the same; the scratch and the usage bits may differ. -/
structure SameOrder (g g' : LockdepGraph) : Prop where
  adj_eq : g'.adj = g.adj
  edges_eq : g'.edges = g.edges
  classes_eq : g'.classes.map (fun c => (c.key, c.name)) = g.classes.map fun c => (c.key, c.name)

theorem SameOrder.refl (g : LockdepGraph) : SameOrder g g := ⟨rfl, rfl, rfl⟩

theorem SameOrder.trans {a b c : LockdepGraph} (h : SameOrder a b) (h' : SameOrder b c) :
    SameOrder a c :=
  ⟨h'.adj_eq.trans h.adj_eq, h'.edges_eq.trans h.edges_eq, h'.classes_eq.trans h.classes_eq⟩

section

variable (h : SameOrder g g')

include h

theorem SameOrder.length_eq : g'.classes.length = g.classes.length := by
  simpa using congrArg List.length h.classes_eq

theorem SameOrder.adjTest_eq : adjTest g' a b = adjTest g a b := by
  rw [adjTest, adjTest, h.adj_eq]

theorem SameOrder.ordered_eq : Ordered g' = Ordered g := by
  funext a b
  rw [Ordered, Ordered, h.adjTest_eq]

theorem SameOrder.tables (t : Tables g) : Tables g' := by
  refine ⟨h.length_eq ▸ t.classes_le, h.edges_eq ▸ t.nodup, fun a b ha hb => ?_, ?_⟩
  · rw [h.adjTest_eq, h.edges_eq]
    exact t.mem_iff a b ha hb
  · rw [h.edges_eq, h.length_eq]
    exact t.valid

end

theorem markUsage_sameOrder (classId usage : ℕ) : SameOrder g (markUsage g classId usage) := by
  refine ⟨rfl, rfl, ?_⟩
  refine ext_getElem? fun i => ?_
  simp only [markUsage, getElem?_map, getElem?_modify]
  cases g.classes[i]? with
  | none => rfl
  | some c => by_cases hi : classId - 1 = i <;> simp [hi]

/-! ## The check -/

/-- How the last loop ends: no held lock was found from the class, apart from those of the class and
those with an edge to it, or one was. -/
inductive LoopEnds (g : LockdepGraph) (classId : ℕ) (hs : List LockdepHeld) :
    Option LockdepFinding × LockdepGraph → Prop
  | clear {bfs : LockdepBfs} (hall : ∀ h ∈ hs, h.classId = classId ∨
      adjTest g h.classId classId = true ∨
      ∃ bfs', (bfsFind { g with bfs := bfs' } classId h.classId).1 = false) :
      LoopEnds g classId hs (none, { g with bfs := bfs })
  | found {h : LockdepHeld} {i : ℕ} {bfs : LockdepBfs} (hh : h ∈ hs)
      (hfound : (bfsFind { g with bfs := bfs } classId h.classId).1 = true) :
      LoopEnds g classId hs (some (buildPath (bfsFind { g with bfs := bfs } classId h.classId).2
        classId h.classId
        { kind := .inversion, newClass := classId, heldClass := h.classId, heldIndex := i }),
        (bfsFind { g with bfs := bfs } classId h.classId).2)

theorem LoopEnds.cons {h : LockdepHeld} {hs : List LockdepHeld}
    {r : Option LockdepFinding × LockdepGraph} (hends : LoopEnds g classId hs r)
    (hh : h.classId = classId ∨ adjTest g h.classId classId = true ∨
      ∃ bfs', (bfsFind { g with bfs := bfs' } classId h.classId).1 = false) :
    LoopEnds g classId (h :: hs) r := by
  cases hends with
  | clear hall => exact .clear (forall_mem_cons.2 ⟨hh, hall⟩)
  | found hmem hfound => exact .found (mem_cons_of_mem h hmem) hfound

theorem inversionLoop_ends (g : LockdepGraph) (classId : ℕ) (hs : List LockdepHeld) (i : ℕ)
    (bfs : LockdepBfs) :
    LoopEnds g classId hs (inversionLoop classId i hs { g with bfs := bfs }) := by
  induction hs generalizing i bfs with
  | nil => exact .clear fun h hh => (not_mem_nil hh).elim
  | cons h hs ih =>
    simp only [inversionLoop]
    split_ifs with hskip
    · exact (ih (i + 1) bfs).cons (hskip.imp_right .inl)
    · split <;> rename_i g' heq <;> obtain rfl : _ = g' := congrArg Prod.snd heq
      · exact .found mem_cons_self (congrArg Prod.fst heq)
      · exact (ih (i + 1) _).cons (.inr (.inr ⟨bfs, congrArg Prod.fst heq⟩))

theorem LoopEnds.verdict {hs : List LockdepHeld} {r : Option LockdepFinding × LockdepGraph}
    (h : LoopEnds g classId hs r) : verdictOf r.1 ∈ [LockdepVerdict.ok, .inversion] := by
  cases h with
  | clear => exact mem_cons_self
  | found => exact mem_cons_of_mem _ mem_cons_self

/-- How a check ends: with an overflow or a recursion, with a conflict of usage, or after these. -/
inductive CheckEnds (g : LockdepGraph) (hs : LockdepHeldStack) (classId : ℕ) (irqCtx : BitVec 8)
    (irqsOn : Bool) : Bool → Option LockdepFinding × LockdepGraph → Prop
  | early {trylock : Bool} {f : LockdepFinding}
      (hf : f.kind ∈ [LockdepVerdict.heldOverflow, .recursion]) :
      CheckEnds g hs classId irqCtx irqsOn trylock (some f, g)
  | conflict {trylock : Bool} {f : LockdepFinding}
      (hf : irqConflict g classId irqCtx irqsOn = some f) :
      CheckEnds g hs classId irqCtx irqsOn trylock (some f, g)
  | passed (hf : irqConflict g classId irqCtx irqsOn = none) :
      CheckEnds g hs classId irqCtx irqsOn true (none, g)
  | loop {r : Option LockdepFinding × LockdepGraph}
      (hf : irqConflict g classId irqCtx irqsOn = none)
      (hclass : ∀ h ∈ segment hs irqCtx, h.classId ≠ classId)
      (hloop : LoopEnds g classId (segment hs irqCtx) r) :
      CheckEnds g hs classId irqCtx irqsOn false r

section Check

variable (g : LockdepGraph) (hs : LockdepHeldStack) (inst classId : ℕ) (irqCtx : BitVec 8)
  (irqsOn trylock : Bool)

theorem lockdepCoreCheckAcquire_ends :
    CheckEnds g hs classId irqCtx irqsOn trylock
      (lockdepCoreCheckAcquire g hs inst classId irqCtx irqsOn trylock) := by
  unfold lockdepCoreCheckAcquire
  split
  · exact .early (by simp)
  split
  · exact .early (by simp)
  split
  · exact .early (by simp)
  next hclass =>
    split
    next hf => exact .conflict hf
    next hf =>
      cases trylock with
      | false =>
        refine .loop hf (fun h hh => ?_) (inversionLoop_ends g _ _ _ g.bfs)
        simpa using findIdx?_eq_none_iff.1 hclass h hh
      | true => exact .passed hf

theorem lockdepCoreCheckAcquire_scratch :
    ∃ bfs, (lockdepCoreCheckAcquire g hs inst classId irqCtx irqsOn trylock).2 =
      { g with bfs := bfs } := by
  have hends := lockdepCoreCheckAcquire_ends g hs inst classId irqCtx irqsOn trylock
  generalize lockdepCoreCheckAcquire g hs inst classId irqCtx irqsOn trylock = r at hends ⊢
  cases hends with
  | loop _ _ hloop => cases hloop <;> exact ⟨_, rfl⟩
  | _ => exact ⟨g.bfs, rfl⟩

theorem lockdepCoreCheckAcquire_sameOrder :
    SameOrder g (lockdepCoreCheckAcquire g hs inst classId irqCtx irqsOn trylock).2 := by
  obtain ⟨bfs, h⟩ := lockdepCoreCheckAcquire_scratch g hs inst classId irqCtx irqsOn trylock
  rw [h]
  exact ⟨rfl, rfl, rfl⟩

end Check

theorem irqConflict_kind {irqsOn : Bool}
    {f : LockdepFinding} (hf : irqConflict g classId irqCtx irqsOn = some f) :
    f.kind = .irqInconsistent := by
  unfold irqConflict at hf
  dsimp only at hf
  split_ifs at hf <;> cases hf <;> rfl

/-! ## The record -/

/-- Setting one bit of the matrix adds one edge. -/
theorem adjTest_adjSet {x y : ℕ} (ha : 0 < a) (hb : 0 < b) (hx : 0 < x)
    (hy : 0 < y) : adjTest (adjSet g a b) x y = true ↔ (x = a ∧ y = b) ∨ adjTest g x y = true := by
  unfold adjTest adjSet
  dsimp only
  by_cases hxa : x - 1 = a - 1
  · rw [hxa, update_self, bitTest_setBit _ (Nat.mod_lt _ (by decide)), Bool.or_eq_true,
      beq_iff_eq]
    refine or_congr ?_ Iff.rfl
    omega
  · rw [update_of_ne hxa]
    refine (or_iff_right fun h => hxa ?_).symm
    rw [h.1]

/-- The edge of one held class, in the table and in the matrix. -/
theorem Tables.addEdge (t : Tables g)
    (ha : 0 < a ∧ a ≤ g.classes.length) (hb : 0 < b ∧ b ≤ g.classes.length)
    (hnew : adjTest g a b = false) :
    Tables (adjSet { g with edges := g.edges ++ [⟨a, b⟩] } a b) ∧
      Ordered (adjSet { g with edges := g.edges ++ [⟨a, b⟩] } a b) = addInto (Ordered g) {a} b := by
  have hset : ∀ x y, 0 < x → 0 < y →
      (adjTest (adjSet { g with edges := g.edges ++ [⟨a, b⟩] } a b) x y = true ↔
        (x = a ∧ y = b) ∨ adjTest g x y = true) :=
    fun x y hx hy => adjTest_adjSet ha.1 hb.1 hx hy
  refine ⟨⟨t.classes_le, ?_, fun x y hx hy => ?_, fun e he => ?_⟩, ?_⟩
  · refine nodup_append.2 ⟨t.nodup, nodup_singleton _, fun e he e' he' hee => ?_⟩
    rw [mem_singleton] at he'
    rw [hee, he', ← t.mem_iff a b ha.1 hb.1, hnew] at he
    cases he
  · rw [hset x y hx hy, t.mem_iff x y hx hy, or_comm]
    simp [adjSet]
  · rcases mem_append.1 he with he | he
    · exact t.valid e he
    · rw [mem_singleton] at he
      subst he
      exact ⟨ha, hb⟩
  · funext x y
    simp only [Ordered, addInto, Set.mem_singleton_iff, eq_iff_iff]
    constructor
    · rintro ⟨hx, hy, h⟩
      rw [hset x y hx hy] at h
      exact h.elim .inr fun h => .inl ⟨hx, hy, h⟩
    · rintro (⟨hx, hy, h⟩ | ⟨rfl, rfl⟩)
      · exact ⟨hx, hy, (hset x y hx hy).2 (.inr h)⟩
      · exact ⟨ha.1, hb.1, (hset _ _ ha.1 hb.1).2 (.inl ⟨rfl, rfl⟩)⟩

/-- The edges that an acquire records: from some of the held classes to the new one. -/
theorem commitEdges_spec (hs : List LockdepHeld) (t : Tables g)
    (hid : 0 < classId ∧ classId ≤ g.classes.length)
    (hheld : ∀ h ∈ hs, 0 < h.classId ∧ h.classId ≤ g.classes.length) :
    Tables (commitEdges classId hs g).2 ∧ ∃ S : Set ℕ, (∀ a ∈ S, ∃ h ∈ hs, h.classId = a) ∧
      Ordered (commitEdges classId hs g).2 = addInto (Ordered g) S classId := by
  induction hs generalizing g with
  | nil =>
    refine ⟨t, ∅, fun a ha => ha.elim, ?_⟩
    funext a b
    simp [commitEdges, addInto]
  | cons h hs ih =>
    obtain ⟨hh, hheld⟩ := forall_mem_cons.1 hheld
    have hskip : Tables (commitEdges classId hs g).2 ∧ ∃ S : Set ℕ,
        (∀ a ∈ S, ∃ h' ∈ h :: hs, h'.classId = a) ∧
          Ordered (commitEdges classId hs g).2 = addInto (Ordered g) S classId := by
      obtain ⟨t', S, hS, hord⟩ := ih t hid hheld
      refine ⟨t', S, fun a ha => ?_, hord⟩
      obtain ⟨h', hmem, he⟩ := hS a ha
      exact ⟨h', mem_cons_of_mem h hmem, he⟩
    simp only [commitEdges]
    split_ifs with hold hfull
    · exact hskip
    · exact hskip
    · rw [not_or, Bool.not_eq_true] at hold
      obtain ⟨t', hord'⟩ := t.addEdge hh hid hold.2
      obtain ⟨t'', S, hS, hord⟩ := ih t' hid hheld
      refine ⟨t'', insert h.classId S, ?_, ?_⟩
      · rintro a (rfl | ha)
        · exact ⟨h, mem_cons_self, rfl⟩
        · obtain ⟨h', hmem, he⟩ := hS a ha
          exact ⟨h', mem_cons_of_mem h hmem, he⟩
      · rw [hord, hord']
        funext a b
        simp only [addInto, Set.mem_insert_iff, Set.mem_singleton_iff, eq_iff_iff]
        tauto

theorem commitEdges_classes (hs : List LockdepHeld) :
    (commitEdges classId hs g).2.classes = g.classes := by
  induction hs generalizing g with
  | nil => rfl
  | cons h hs ih =>
    simp only [commitEdges]
    split_ifs
    · exact ih
    · exact ih
    · exact ih

theorem markAcquire_sameOrder (g : LockdepGraph) (classId : ℕ) (irqCtx : BitVec 8) (irqsOn : Bool) :
    SameOrder g (markAcquire g classId irqCtx irqsOn) := by
  unfold markAcquire
  split_ifs
  · exact markUsage_sameOrder _ _
  · exact markUsage_sameOrder _ _
  · exact .refl g

/-- The record of an acquire marks the usage of the class and then adds the edges, if it does. -/
theorem lockdepCoreCommitAcquire_graph (hs : LockdepHeldStack)
    (inst classId : ℕ) (irqsOn trylock addEdges : Bool) :
    (lockdepCoreCommitAcquire g hs inst classId irqCtx irqsOn trylock addEdges).2.1 =
      if !trylock && addEdges then
        (commitEdges classId (segment hs irqCtx) (markAcquire g classId irqCtx irqsOn)).2
      else markAcquire g classId irqCtx irqsOn := by
  unfold lockdepCoreCommitAcquire
  by_cases h : (!trylock && addEdges) = true <;> simp [h]

variable {hs : LockdepHeldStack} {h : LockdepHeld} {trylock : Bool}

/-- The record of an acquire pushes the new entry, if there is room. -/
theorem mem_lockdepCoreCommitAcquire_held {inst : ℕ} {irqsOn addEdges : Bool} (hh : h ∈
      (lockdepCoreCommitAcquire g hs inst classId irqCtx irqsOn trylock addEdges).2.2) :
    h ∈ hs ∨ h.classId = classId := by
  simp only [lockdepCoreCommitAcquire] at hh
  split_ifs at hh
  · rcases mem_append.1 hh with hh | hh
    · exact .inl hh
    · rw [mem_singleton] at hh
      exact .inr (congrArg LockdepHeld.classId hh)
  · exact .inl hh

/-! ## An acquire -/

/-- The classes held in the current context segment. -/
def heldClasses (hs : LockdepHeldStack) (irqCtx : BitVec 8) : Set ℕ :=
  {a | ∃ h ∈ segment hs irqCtx, h.classId = a}

section Acquire

variable {g : LockdepGraph} {hs : LockdepHeldStack} {inst classId : ℕ} {irqCtx : BitVec 8}
  {irqsOn : Bool}

/-- A check that passes the overflow, recursion and interrupt checks reports an inversion exactly
when the edges from the held classes would close a cycle, and nothing otherwise. -/
theorem lockdepCoreCheckAcquire_exact (t : Tables g) (hacyc : Acyclic (Ordered g))
    (hheld : ∀ h ∈ hs, 0 < h.classId) (hid : 0 < classId ∧ classId ≤ g.classes.length)
    (hv : verdictOf (lockdepCoreCheckAcquire g hs inst classId irqCtx irqsOn false).1 ∉
      [LockdepVerdict.heldOverflow, .recursion, .irqInconsistent]) :
    (verdictOf (lockdepCoreCheckAcquire g hs inst classId irqCtx irqsOn false).1 = .ok ∧
        Acyclic (addInto (Ordered g) (heldClasses hs irqCtx) classId)) ∨
      verdictOf (lockdepCoreCheckAcquire g hs inst classId irqCtx irqsOn false).1 =
          .inversion ∧
        ¬ Acyclic (addInto (Ordered g) (heldClasses hs irqCtx) classId) := by
  have hends := lockdepCoreCheckAcquire_ends g hs inst classId irqCtx irqsOn false
  generalize lockdepCoreCheckAcquire g hs inst classId irqCtx irqsOn false = r at hends hv ⊢
  cases hends with
  | early hf => exact absurd (mem_append_left [_] hf) hv
  | conflict hf => exact absurd (by simp [verdictOf, irqConflict_kind hf]) hv
  | loop hf hne hloop =>
    have hfind : ∀ {bfs b}, (bfsFind { g with bfs := bfs } classId b).1 = true ↔
        ReflTransGen (Ordered g) classId b :=
      bfsLoop_iff t.adjValid (.init g _ _ hid.1 (hid.2.trans t.classes_le)) (Nat.lt_succ_self _)
    rw [acyclic_addInto_iff hacyc]
    cases hloop with
    | clear hall =>
      refine .inl ⟨rfl, ?_⟩
      rintro a ⟨e, he, rfl⟩ hreach
      rcases hall e he with heq | hadj | ⟨bfs, hnot⟩
      · exact hne e he heq
      · -- Were the edge recorded already, it would close a cycle.
        exact hacyc classId (.tail' hreach ⟨hheld e (mem_of_mem_drop he), hid.1, hadj⟩)
      · exact Bool.false_ne_true (hnot.symm.trans (hfind.2 hreach))
    | @found e _ _ he hfound =>
      exact .inr ⟨rfl, fun hall => hall e.classId ⟨e, he, rfl⟩ (hfind.1 hfound)⟩

/-- An acquire that was reported marks a usage, and records no edge. -/
theorem lockdepAcquireCore_reported
    (hv : verdictOf (lockdepCoreCheckAcquire g hs inst classId irqCtx irqsOn trylock).1 ≠ .ok ∨
      trylock = true) :
    ∃ bfs, (lockdepAcquireCore g hs inst classId irqCtx irqsOn trylock).1 =
      { markAcquire g classId irqCtx irqsOn with bfs := bfs } := by
  obtain ⟨bfs, hcheck⟩ := lockdepCoreCheckAcquire_scratch g hs inst classId irqCtx irqsOn trylock
  have hno : (!trylock && decide (verdictOf
      (lockdepCoreCheckAcquire g hs inst classId irqCtx irqsOn trylock).1 = .ok)) = false := by
    rcases hv with hv | rfl
    · rw [decide_eq_false hv, Bool.and_false]
    · rfl
  refine ⟨bfs, ?_⟩
  unfold lockdepAcquireCore
  dsimp only
  rw [lockdepCoreCommitAcquire_graph, hno, if_neg Bool.false_ne_true, hcheck]
  unfold markAcquire
  split_ifs <;> rfl

theorem lockdepAcquireCore_sameOrder
    (hv : verdictOf (lockdepCoreCheckAcquire g hs inst classId irqCtx irqsOn trylock).1 ≠ .ok ∨
      trylock = true) :
    SameOrder g (lockdepAcquireCore g hs inst classId irqCtx irqsOn trylock).1 := by
  obtain ⟨bfs, h⟩ := lockdepAcquireCore_reported hv
  have hsame := markAcquire_sameOrder g classId irqCtx irqsOn
  rw [h]
  exact ⟨hsame.adj_eq, hsame.edges_eq, hsame.classes_eq⟩

/-- An acquire keeps the tables and the absence of cycles, and registers no class. -/
theorem lockdepAcquireCore_spec (inst : ℕ) (irqCtx : BitVec 8) (irqsOn trylock : Bool)
    (t : Tables g) (hacyc : Acyclic (Ordered g))
    (hheld : ∀ h ∈ hs, 0 < h.classId ∧ h.classId ≤ g.classes.length)
    (hid : 0 < classId ∧ classId ≤ g.classes.length) :
    Tables (lockdepAcquireCore g hs inst classId irqCtx irqsOn trylock).1 ∧
      Acyclic (Ordered (lockdepAcquireCore g hs inst classId irqCtx irqsOn trylock).1) ∧
      (lockdepAcquireCore g hs inst classId irqCtx irqsOn trylock).1.classes.length =
        g.classes.length := by
  by_cases hv : verdictOf
      (lockdepCoreCheckAcquire g hs inst classId irqCtx irqsOn trylock).1 ≠ .ok ∨
      trylock = true
  · have hsame := lockdepAcquireCore_sameOrder hv
    exact ⟨hsame.tables t, hsame.ordered_eq ▸ hacyc, hsame.length_eq⟩
  · rw [not_or, not_not, Bool.not_eq_true] at hv
    obtain ⟨hok, rfl⟩ := hv
    obtain ⟨g1, hg1⟩ : ∃ g1, markAcquire
        (lockdepCoreCheckAcquire g hs inst classId irqCtx irqsOn false).2 classId irqCtx irqsOn =
          g1 :=
      ⟨_, rfl⟩
    have hsame : SameOrder g g1 := hg1 ▸
      (lockdepCoreCheckAcquire_sameOrder g hs inst classId irqCtx irqsOn false).trans
        (markAcquire_sameOrder ..)
    have heq : (lockdepAcquireCore g hs inst classId irqCtx irqsOn false).1 =
        (commitEdges classId (segment hs irqCtx) g1).2 := by
      unfold lockdepAcquireCore
      dsimp only
      rw [hok, decide_eq_true rfl, lockdepCoreCommitAcquire_graph, hg1]
      rfl
    obtain ⟨t', S, hS, hord⟩ := commitEdges_spec (segment hs irqCtx)
      (hsame.tables t) (by rwa [hsame.length_eq])
      (fun h hh => by rw [hsame.length_eq]; exact hheld h (mem_of_mem_drop hh))
    have hacyc' : Acyclic (addInto (Ordered g) (heldClasses hs irqCtx) classId) := by
      rcases lockdepCoreCheckAcquire_exact t hacyc (fun h hh => (hheld h hh).1) hid
        (by rw [hok]; decide) with ⟨-, h⟩ | ⟨h, -⟩
      · exact h
      · rw [hok] at h
        cases h
    rw [heq]
    refine ⟨t', hacyc'.mono fun a b hab => ?_, by rw [commitEdges_classes, hsame.length_eq]⟩
    rw [hord, hsame.ordered_eq] at hab
    exact hab.imp_right fun h => ⟨hS a h.1, h.2⟩

end Acquire

/-! ## Runs -/

/-- The shared graph, and the held locks of each CPU. -/
structure LockdepWorld where
  graph : LockdepGraph
  held : ℕ → LockdepHeldStack

/-- What is asked of the validator, on some CPU: the class of a key, or the check and the record of
an acquire or of a release. -/
inductive LockdepEvent where
  | classOf (key name : ℕ)
  | acquire (cpu «instance» classId : ℕ) (irqCtx : BitVec 8) (irqsOn trylock : Bool)
  | release (cpu «instance» : ℕ) (irqsOn : Bool)

/-- The class of an acquire is registered. -/
def LockdepEvent.Legal (w : LockdepWorld) : LockdepEvent → Prop
  | .acquire _ _ classId _ _ _ => 0 < classId ∧ classId ≤ w.graph.classes.length
  | _ => True

/-- What the validator does. -/
def LockdepEvent.next (w : LockdepWorld) : LockdepEvent → LockdepWorld
  | .classOf key name => { w with graph := (lockdepCoreClassOf w.graph key name).2.2 }
  | .acquire cpu inst classId irqCtx irqsOn trylock =>
    let r := lockdepAcquireCore w.graph (w.held cpu) inst classId irqCtx irqsOn trylock
    ⟨r.1, update w.held cpu r.2⟩
  | .release cpu inst irqsOn =>
    let r := lockdepCoreCommitRelease w.graph (w.held cpu) inst irqsOn
    ⟨r.1, update w.held cpu r.2⟩

/-- One step of the validator. -/
def LockdepStep (w w' : LockdepWorld) : Prop := ∃ e : LockdepEvent, e.Legal w ∧ e.next w = w'

/-- The all-zero graph, with no lock held. -/
def LockdepWorld.init : LockdepWorld := ⟨.zero, fun _ => []⟩

/-- What every step keeps. -/
structure LockdepInv (w : LockdepWorld) : Prop where
  tables : Tables w.graph
  acyclic : Acyclic (Ordered w.graph)
  held : ∀ cpu, ∀ h ∈ w.held cpu, 0 < h.classId ∧ h.classId ≤ w.graph.classes.length

theorem LockdepInv.init : LockdepInv .init := by
  refine ⟨.zero, fun a h => ?_, fun cpu h hh => (not_mem_nil hh).elim⟩
  obtain ⟨b, hab, -⟩ := TransGen.head'_iff.1 h
  exact not_mem_nil ((Tables.zero.mem_iff a b hab.1 hab.2.1).1 hab.2.2)

theorem lockdepCoreClassOf_cases {g : LockdepGraph} (hg : g.classes.length ≤ LOCKDEP_MAX_CLASSES)
    (key name : ℕ) :
    (lockdepCoreClassOf g key name).2.2 = g ∨
      g.classes.length < LOCKDEP_MAX_CLASSES ∧
        (lockdepCoreClassOf g key name).2.2 =
          { g with classes := g.classes ++ [⟨key, name, 0⟩] } := by
  unfold lockdepCoreClassOf
  split
  · exact .inl rfl
  · split
    · exact .inl rfl
    · split
      next => exact .inl rfl
      next hfull => exact .inr ⟨Nat.lt_of_le_of_ne hg hfull, rfl⟩

variable {w : LockdepWorld}

/-- A lookup registers at most one class. -/
theorem LockdepInv.classOf (hw : LockdepInv w) (key name : ℕ) :
    LockdepInv { w with graph := (lockdepCoreClassOf w.graph key name).2.2 } := by
  rcases lockdepCoreClassOf_cases hw.tables.classes_le key name with h | ⟨hlt, h⟩
  · rw [h]
    exact hw
  · rw [h]
    have hgrow : (w.graph.classes ++ [LockdepClass.mk key name 0]).length =
        w.graph.classes.length + 1 := length_append
    refine ⟨⟨?_, hw.tables.nodup, hw.tables.mem_iff, fun e he => ?_⟩, hw.acyclic,
      fun cpu h' hh => ?_⟩
    · exact hgrow ▸ hlt
    · have hv := hw.tables.valid e he
      dsimp only
      omega
    · have hv := hw.held cpu h' hh
      dsimp only
      omega

/-- A release forgets a held lock and may mark the usage of its class. -/
theorem lockdepCoreCommitRelease_spec (g : LockdepGraph) (hs : LockdepHeldStack) (inst : ℕ)
    (irqsOn : Bool) :
    SameOrder g (lockdepCoreCommitRelease g hs inst irqsOn).1 ∧
      ∀ h ∈ (lockdepCoreCommitRelease g hs inst irqsOn).2, h ∈ hs := by
  unfold lockdepCoreCommitRelease
  split
  · exact ⟨.refl g, fun h hh => hh⟩
  · split
    · exact ⟨.refl g, fun h hh => hh⟩
    · refine ⟨?_, fun h hh => mem_of_mem_eraseIdx hh⟩
      split_ifs
      · exact markUsage_sameOrder _ _
      · exact .refl g

/-- New held locks of one CPU, all of registered classes, keep the others' as they are. -/
theorem held_update (hw : LockdepInv w) {cpu n : ℕ}
    (hn : n = w.graph.classes.length) (hhs : ∀ h ∈ hs, 0 < h.classId ∧ h.classId ≤ n) :
    ∀ cpu', ∀ h ∈ update w.held cpu hs cpu', 0 < h.classId ∧ h.classId ≤ n := by
  intro cpu' h hh
  by_cases hcpu : cpu' = cpu
  · subst hcpu
    rw [update_self] at hh
    exact hhs h hh
  · rw [update_of_ne hcpu] at hh
    exact hn ▸ hw.held cpu' h hh

theorem LockdepInv.next (hw : LockdepInv w) {e : LockdepEvent} (he : e.Legal w) :
    LockdepInv (e.next w) := by
  cases e with
  | classOf key name => exact hw.classOf key name
  | acquire cpu inst classId irqCtx irqsOn trylock =>
    obtain ⟨t, hacyc, hlen⟩ := lockdepAcquireCore_spec inst irqCtx irqsOn trylock hw.tables
      hw.acyclic (hw.held cpu) he
    refine ⟨t, hacyc, held_update hw hlen fun h hh => hlen.symm ▸ ?_⟩
    rcases mem_lockdepCoreCommitAcquire_held hh with hh | hh
    · exact hw.held cpu h hh
    · exact hh ▸ he
  | release cpu inst irqsOn =>
    obtain ⟨hsame, hmem⟩ := lockdepCoreCommitRelease_spec w.graph (w.held cpu) inst irqsOn
    refine ⟨hsame.tables hw.tables, hsame.ordered_eq ▸ hw.acyclic,
      held_update hw hsame.length_eq fun h hh => hsame.length_eq.symm ▸ ?_⟩
    exact hw.held cpu h (hmem h hh)

theorem LockdepInv.step {w' : LockdepWorld} (hw : LockdepInv w) (h : LockdepStep w w') :
    LockdepInv w' := by
  obtain ⟨e, he, rfl⟩ := h
  exact hw.next he

/-! ## The locks that are held -/

/-- The locks that the CPUs hold, as the events say it, the latest first: those that the validator
follows, and those that were acquired while it followed 16 on that CPU. -/
structure HeldLocks where
  held : ℕ → List LockdepHeld
  overflowed : ℕ → List LockdepHeld

/-- What an event does to the held locks. A release ends the latest holding of the lock, of those
that are followed first. -/
def HeldLocks.after (l : HeldLocks) : LockdepEvent → HeldLocks
  | .classOf _ _ => l
  | .acquire cpu inst classId irqCtx irqsOn trylock =>
    let new := ⟨inst, classId, irqCtx, trylock, irqsOn⟩
    if (l.held cpu).length < 16 then { l with held := update l.held cpu (new :: l.held cpu) }
    else { l with overflowed := update l.overflowed cpu (new :: l.overflowed cpu) }
  | .release cpu inst _ =>
    if (l.held cpu).any (·.instance = inst) then
      { l with held := update l.held cpu ((l.held cpu).eraseP (·.instance = inst)) }
    else
      { l with
        overflowed := update l.overflowed cpu ((l.overflowed cpu).eraseP (·.instance = inst)) }

/-- The classes of the latest held locks up to the first of another context. -/
def HeldLocks.classes (l : HeldLocks) (cpu : ℕ) (irqCtx : BitVec 8) : Set ℕ :=
  {a | ∃ h ∈ (l.held cpu).takeWhile (·.irqCtx = irqCtx), h.classId = a}

/-- The stacks hold the locks that are followed. -/
def HeldLocks.Tracked (l : HeldLocks) (w : LockdepWorld) : Prop := w.held = reverse ∘ l.held

variable {l : List LockdepHeld}

/-- `heldFind` finds the latest holding of a lock. -/
theorem heldFind_cases (l : List LockdepHeld) (inst : ℕ) :
    (l.find? (·.instance = inst) = none ∧ heldFind l.reverse inst = none) ∨
      ∃ h before after, l.find? (·.instance = inst) = some h ∧ l = after ++ h :: before ∧
        (∀ h' ∈ after, h'.instance ≠ inst) ∧ h.instance = inst ∧
        heldFind l.reverse inst = some before.length ∧ l.reverse[before.length]? = some h := by
  rw [heldFind, reverse_reverse]
  cases hfind : l.find? fun h => h.instance = inst with
  | none =>
    refine .inl ⟨rfl, ?_⟩
    rw [findIdx?_eq_none_iff.2 fun h hh => by simpa using find?_eq_none.1 hfind h hh]
    rfl
  | some h =>
    obtain ⟨hinst, after, before, rfl, hafter⟩ := find?_eq_some_iff_append.1 hfind
    have hno : ∀ h' ∈ after, h'.instance ≠ inst := by simpa using hafter
    refine .inr ⟨h, before, after, rfl, rfl, hno, of_decide_eq_true hinst, ?_, by simp⟩
    rw [findIdx?_append, findIdx?_eq_none_iff.2 fun h hh => decide_eq_false (hno h hh),
      findIdx?_cons, if_pos hinst]
    simp

/-- What a release finds and removes. -/
theorem lockdepCoreCommitRelease_held (inst : ℕ) (irqsOn : Bool) :
    (lockdepCoreCommitRelease g l.reverse inst irqsOn).2 =
      (l.eraseP (·.instance = inst)).reverse := by
  rcases heldFind_cases l inst with ⟨hno, hfind⟩ |
    ⟨h, before, after, -, rfl, hno, hinst, hfind, hget⟩
  · rw [lockdepCoreCommitRelease, hfind, eraseP_of_forall_not (find?_eq_none.1 hno)]
  · rw [lockdepCoreCommitRelease, hfind]
    simp only [hget]
    rw [eraseP_append_right _ (by simpa using hno), eraseP_cons_of_pos (by simpa using hinst)]
    simp [eraseIdx_append_of_length_le]

/-- The segment is the topmost run of one context. -/
theorem segment_reverse : segment l.reverse irqCtx = (l.takeWhile (·.irqCtx = irqCtx)).reverse := by
  -- The loop only looks at the entries below its index.
  have hbelow : ∀ (hs : LockdepHeldStack) (h : LockdepHeld) (n : ℕ), n ≤ hs.length →
      segmentBaseFrom (hs ++ [h]) irqCtx n = segmentBaseFrom hs irqCtx n := by
    intro hs h n hn
    induction n with
    | zero => rfl
    | succ n ih => rw [segmentBaseFrom, segmentBaseFrom, getElem?_append_left hn, ih (by omega)]
  have hle : ∀ (hs : LockdepHeldStack) (n : ℕ), segmentBaseFrom hs irqCtx n ≤ n := by
    intro hs n
    induction n with
    | zero => exact le_rfl
    | succ n ih =>
      rw [segmentBaseFrom]
      split
      · split_ifs <;> omega
      · exact le_rfl
  unfold segment segmentBase
  induction l with
  | nil => rfl
  | cons h l ih =>
    rw [reverse_cons, takeWhile_cons, length_append, length_singleton, segmentBaseFrom,
      getElem?_append_right le_rfl, Nat.sub_self]
    by_cases hctx : h.irqCtx = irqCtx
    · simp only [getElem?_cons_zero, if_pos hctx, decide_eq_true hctx, if_true, reverse_cons]
      rw [hbelow _ _ _ le_rfl, drop_append_of_le_length (hle _ _), ih]
    · simp only [getElem?_cons_zero, if_neg hctx, decide_eq_false hctx,
        Bool.false_eq_true, if_false]
      rw [drop_eq_nil_of_le (by simp)]
      rfl

variable {locks : HeldLocks}

theorem HeldLocks.Tracked.next (h : locks.Tracked w) (e : LockdepEvent) :
    (locks.after e).Tracked (e.next w) := by
  obtain ⟨g, hs⟩ := w
  obtain rfl : hs = reverse ∘ locks.held := h
  unfold HeldLocks.Tracked
  cases e with
  | classOf key name => rfl
  | acquire cpu inst classId irqCtx irqsOn trylock =>
    simp only [LockdepEvent.next, lockdepAcquireCore, lockdepCoreCommitAcquire, HeldLocks.after,
      comp_apply, length_reverse, LOCKDEP_MAX_HELD]
    split_ifs
    · rw [← reverse_cons, comp_update]
    · rw [← comp_update, update_eq_self]
  | release cpu inst irqsOn =>
    simp only [LockdepEvent.next, HeldLocks.after, comp_apply, lockdepCoreCommitRelease_held]
    split_ifs with hany
    · rw [comp_update]
    · rw [← comp_update, eraseP_of_forall_not (by simpa using hany), update_eq_self]

/-- What an event does to the validator and to the held locks. -/
def heldNext (w : LockdepWorld × HeldLocks) (e : LockdepEvent) : LockdepWorld × HeldLocks :=
  (e.next w.1, w.2.after e)

/-- A step, with the held locks. -/
def HeldStep (w w' : LockdepWorld × HeldLocks) : Prop := ∃ e, e.Legal w.1 ∧ heldNext w e = w'

/-- No lock is held. -/
def HeldLocks.none : HeldLocks := ⟨fun _ => [], fun _ => []⟩

/-- What the validator promises about the order it has recorded, when the CPUs hold these locks. -/
structure LockOrderOk (w : LockdepWorld) (l : HeldLocks) : Prop where
  acyclic : Acyclic (Ordered w.graph)
  irrefl : ∀ a, ¬ Ordered w.graph a a
  adjTest_iff : ∀ a b, 0 < a → 0 < b →
    (adjTest w.graph a b = true ↔ w.graph.edges.count ⟨a, b⟩ = 1)
  /-- An acquire overflows exactly if 16 locks are followed on its CPU. -/
  overflow_iff : ∀ (cpu «instance» classId : ℕ) (irqCtx : BitVec 8) (irqsOn trylock : Bool),
    verdictOf (lockdepCoreCheckAcquire w.graph (w.held cpu) «instance» classId irqCtx irqsOn
      trylock).1 = .heldOverflow ↔ 16 ≤ (l.held cpu).length
  /-- The inversions are the cycles that the locks followed in the current context would close. -/
  inversion_iff : ∀ (cpu «instance» classId : ℕ) (irqCtx : BitVec 8) (irqsOn : Bool),
    0 < classId ∧ classId ≤ w.graph.classes.length →
    verdictOf (lockdepCoreCheckAcquire w.graph (w.held cpu) «instance» classId irqCtx irqsOn
        false).1 ∉ [LockdepVerdict.heldOverflow, .recursion, .irqInconsistent] →
    (verdictOf (lockdepCoreCheckAcquire w.graph (w.held cpu) «instance» classId irqCtx irqsOn
        false).1 = .inversion ↔
      ¬ Acyclic (addInto (Ordered w.graph) (l.classes cpu irqCtx) classId))
  /-- The record of an inversion changes a usage bit of the class and the scratch only. -/
  inversion_graph : ∀ (cpu «instance» classId : ℕ) (irqCtx : BitVec 8) (irqsOn : Bool),
    verdictOf (lockdepCoreCheckAcquire w.graph (w.held cpu) «instance» classId irqCtx irqsOn
        false).1 = .inversion →
    ∃ bfs, (lockdepAcquireCore w.graph (w.held cpu) «instance» classId irqCtx irqsOn false).1 =
      { markAcquire w.graph classId irqCtx irqsOn with bfs := bfs }

theorem overflow_iff (inst classId : ℕ) (irqCtx : BitVec 8) (irqsOn trylock : Bool) :
    verdictOf (lockdepCoreCheckAcquire g hs inst classId irqCtx irqsOn trylock).1 = .heldOverflow ↔
      LOCKDEP_MAX_HELD ≤ hs.length := by
  unfold lockdepCoreCheckAcquire
  split
  next hlen => exact iff_of_true rfl hlen
  next hlen =>
    refine iff_of_false ?_ hlen
    split
    · rintro ⟨⟩
    split
    · rintro ⟨⟩
    split
    next f hf =>
      rw [verdictOf, irqConflict_kind hf]
      rintro ⟨⟩
    split_ifs
    · rintro ⟨⟩
    · intro hv
      have hloop :=
        (inversionLoop_ends g classId (segment hs irqCtx) (segmentBase hs irqCtx) g.bfs).verdict
      rw [hv] at hloop
      revert hloop
      decide

theorem HeldLocks.Tracked.heldClasses (h : locks.Tracked w) (cpu : ℕ) (irqCtx : BitVec 8) :
    heldClasses (w.held cpu) irqCtx = locks.classes cpu irqCtx := by
  unfold Sync.heldClasses HeldLocks.classes
  rw [h, comp_apply, segment_reverse]
  simp only [mem_reverse]

theorem LockdepInv.orderOk (hw : LockdepInv w) (hl : locks.Tracked w) : LockOrderOk w locks where
  acyclic := hw.acyclic
  irrefl := hw.acyclic.irrefl
  adjTest_iff a b ha hb := by
    rw [hw.tables.mem_iff a b ha hb]
    refine ⟨count_eq_one_of_mem hw.tables.nodup, fun h => ?_⟩
    exact count_pos_iff.1 (by omega)
  overflow_iff cpu inst classId irqCtx irqsOn trylock := by
    rw [overflow_iff, hl, comp_apply, length_reverse, LOCKDEP_MAX_HELD]
  inversion_iff cpu inst classId irqCtx irqsOn hid hv := by
    rw [← hl.heldClasses]
    rcases lockdepCoreCheckAcquire_exact hw.tables hw.acyclic (fun h hh => (hw.held cpu h hh).1) hid
      hv with ⟨hok, hacyc⟩ | ⟨hinv, hcycle⟩
    · rw [hok]
      refine iff_of_false ?_ (not_not.2 hacyc)
      decide
    · exact ⟨fun _ => hcycle, fun _ => hinv⟩
  inversion_graph cpu inst classId irqCtx irqsOn hv :=
    lockdepAcquireCore_reported (.inl (by rw [hv]; decide))

/-- From the all-zero graph on, on any number of CPUs: the recorded order has no cycle, the matrix
holds an edge exactly when the table holds it once, and the report of an inversion is exact for the
locks that are held and did not overflow, and leaves the order as it was. -/
theorem lockdep_orderExact {w : LockdepWorld} {l : HeldLocks}
    (h : Run HeldStep (.init, .none) (w, l)) : LockOrderOk w l := by
  obtain ⟨hw, hl⟩ := h.invariant (P := fun w => LockdepInv w.1 ∧ w.2.Tracked w.1)
    ⟨LockdepInv.init, rfl⟩ (by
      rintro ⟨w, l⟩ _ ⟨hw, hl⟩ ⟨e, he, rfl⟩
      exact ⟨hw.next he, hl.next e⟩)
  exact hw.orderOk hl

instance decidableLegal (w : LockdepWorld) (e : LockdepEvent) : Decidable (e.Legal w) := by
  cases e <;> unfold LockdepEvent.Legal <;> infer_instance

/-- The validator and the held locks after some events. -/
def lockdepAfter (es : List LockdepEvent) : LockdepWorld × HeldLocks :=
  es.foldl heldNext (.init, .none)

theorem run_lockdepAfter (es : List LockdepEvent)
    (h : AllAllowed (fun w e => e.Legal w.1) heldNext (.init, .none) es) :
    Run HeldStep (.init, .none) (lockdepAfter es) := h.run

/-- The locks of two classes are taken in one order and released in the same, the second is taken
again, and a handler takes and releases the first. -/
def twoLocks : List LockdepEvent :=
  [.classOf 1 1, .classOf 2 2, .acquire 0 10 1 0 false false, .acquire 0 20 2 0 false false,
    .release 0 10 false, .release 0 20 false, .acquire 0 21 2 0 false false,
    .acquire 0 11 1 1 false false, .release 0 11 false]

/-- Now the first class inverts the order in process context, and not in a handler. -/
theorem lockdep_orderExact_twoLocks :
    let w := (lockdepAfter twoLocks).1
    LockOrderOk w (lockdepAfter twoLocks).2 ∧
      verdictOf (lockdepCoreCheckAcquire w.graph (w.held 0) 12 1 0 false false).1 = .inversion ∧
      ¬ Acyclic (addInto (Ordered w.graph) ((lockdepAfter twoLocks).2.classes 0 0) 1) ∧
      Acyclic (addInto (Ordered w.graph) ((lockdepAfter twoLocks).2.classes 0 1) 1) := by
  have hok := lockdep_orderExact (run_lockdepAfter twoLocks (by decide +kernel))
  refine ⟨hok, by decide +kernel, ?_, ?_⟩
  · exact (hok.inversion_iff 0 12 1 0 false (by decide +kernel) (by decide +kernel)).1
      (by decide +kernel)
  · exact not_not.1
      ((hok.inversion_iff 0 12 1 1 false (by decide +kernel) (by decide +kernel)).not.1
        (by decide +kernel))

/-- Class 2 is taken after class 3, and both are released. Then 16 locks of class 1 are held, a lock
of class 2 is acquired, and the first of the others is released. -/
def hiddenLock : List LockdepEvent :=
  [.classOf 1 1, .classOf 2 2, .classOf 3 3, .acquire 0 30 3 0 false false,
    .acquire 0 20 2 0 false false, .release 0 20 false, .release 0 30 false] ++
  (List.range 16).map (fun i => .acquire 0 (100 + i) 1 0 false true) ++
  [.acquire 0 20 2 0 false false, .release 0 100 false]

/-- A lock whose acquire overflowed is not seen: class 3 is acquired while class 2 is held in the
same context, which closes a cycle, and the check finds nothing. And an acquire that is an inversion
changes the classes of the graph. -/
theorem lockdep_overflow_hides_inversion :
    (∃ w l, Run HeldStep (.init, .none) (w, l) ∧
      (∃ h ∈ l.overflowed 0, h.classId = 2 ∧ h.irqCtx = 0) ∧ (∀ h ∈ l.held 0, h.irqCtx = 0) ∧
      ¬ Acyclic (addInto (Ordered w.graph) {2} 3) ∧
      verdictOf (lockdepCoreCheckAcquire w.graph (w.held 0) 31 3 0 false false).1 = .ok) ∧
    ∃ w l, Run HeldStep (.init, .none) (w, l) ∧
      verdictOf (lockdepCoreCheckAcquire w.graph (w.held 0) 12 1 0 true false).1 = .inversion ∧
      (lockdepAcquireCore w.graph (w.held 0) 12 1 0 true false).1.classes ≠ w.graph.classes := by
  refine ⟨⟨_, _, run_lockdepAfter hiddenLock (by decide +kernel), by decide +kernel,
    by decide +kernel, fun hacyc => hacyc 3 ?_, by decide +kernel⟩, _, _,
    run_lockdepAfter (twoLocks.take 7) (by decide +kernel), by decide +kernel, by decide +kernel⟩
  have hedge : Ordered (lockdepAfter hiddenLock).1.graph 3 2 := by
    unfold Ordered
    decide +kernel
  exact .head (.inl hedge) (.single (.inr ⟨rfl, rfl⟩))

end Bongos.Sync
