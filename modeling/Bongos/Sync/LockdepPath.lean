import Bongos.Sync.LockdepOrder
import Mathlib.Data.List.Chain

/-!
# The chain of an inversion report

`bfsFind` goes through the graph by layers, so the parents that it leaves in the scratch of the
graph lead back from the held class to the new one along a shortest path, and `buildPath` copies the
end of that path. Parents that an earlier search left are overwritten before they are followed.
-/

namespace Bongos.Sync

open GraphSearch Relation List

/-! ## The parents -/

/-- The parents of the classes of some bits of a word. -/
theorem foldl_bfsPush_parent (cur w : ℕ) (bs : List ℕ) (s : LockdepBfs) (i : ℕ) :
    (bs.foldl (bfsPush cur w) s).bfsParent i =
      if i + 1 ∈ bs.map (fun b => w * 64 + b + 1) then cur else s.bfsParent i := by
  induction bs generalizing s with
  | nil => simp
  | cons b bs ih =>
    rw [foldl_cons, ih]
    simp only [bfsPush, map_cons, mem_cons, Nat.add_right_cancel_iff]
    by_cases hrest : i + 1 ∈ bs.map fun b => w * 64 + b + 1
    · simp [hrest]
    · by_cases hb : i = w * 64 + b
      · simp [hb]
      · simp [hrest, hb]

/-- The parent of the classes that expanding a class queues is that class. -/
theorem foldl_bfsWord_parent (row : ℕ → BitVec 64) (cur : ℕ) (s : LockdepBfs) (n i : ℕ) :
    ((List.range n).foldl (bfsWord row cur) s).bfsParent i =
      if i + 1 ∈ ((List.range n).foldl (bfsWord row cur) s).bfsQueue.drop s.bfsQueue.length then cur
      else s.bfsParent i := by
  induction n with
  | zero => simp
  | succ n ih =>
    obtain ⟨new, hqueue, -⟩ := foldl_bfsWord row cur s n
    rw [range_succ, foldl_append, foldl_cons, foldl_nil]
    generalize (List.range n).foldl (bfsWord row cur) s = t at ih hqueue
    have hlt : ∀ b ∈ setBits (row n &&& ~~~ t.bfsSeen n).toNat, b < 64 := fun b hb =>
      (mem_setBits_new.1 hb).1
    rw [bfsWord, foldl_bfsPush_parent, (foldl_bfsPush cur n hlt t).1, ih, hqueue,
      append_assoc, drop_left, drop_left]
    simp only [mem_append]
    split_ifs <;> first | rfl | tauto

/-! ## The search -/

section Search

variable {g : LockdepGraph} {src dst : ℕ}

/-- A search that goes by layers, with the parents in the scratch. -/
def BfsLayers (g : LockdepGraph) (src head : ℕ) (s : LockdepBfs) : Prop :=
  ∃ depth, Layered (Ordered g) src (s.bfsQueue.take head) (s.bfsQueue.drop head) depth
    fun x => s.bfsParent (x - 1)

theorem BfsLayers.expand (hg : AdjValid g) {head cur : ℕ} {s : LockdepBfs}
    (i : BfsInv g src dst head s) (l : BfsLayers g src head s)
    (hcur : s.bfsQueue[head]? = some cur) :
    BfsLayers g src (head + 1) (bfsExpand g cur s) := by
  obtain ⟨hlt, hdrop, htake⟩ := queue_split hcur
  obtain ⟨new, hqueue, -, hnew, -⟩ := i.successors hg hcur
  have hparent := foldl_bfsWord_parent (g.adj (cur - 1)) cur s (LOCKDEP_MAX_CLASSES / 64)
  obtain ⟨depth, hl⟩ := l
  have hsearch := i.search
  rw [hdrop] at hl hsearch
  rw [hqueue, drop_left] at hparent
  have hpos : ∀ y ∈ s.bfsQueue.take head ++ cur :: s.bfsQueue.drop (head + 1) ++ new, 0 < y := by
    intro y hy
    rw [← hdrop, take_append_drop] at hy
    rcases mem_append.1 hy with hy | hy
    · exact (i.range y hy).1
    · exact ((hnew y).1 hy).1.2.1
  rw [BfsLayers, hqueue, take_append_of_le_length hlt, drop_append_of_le_length hlt, htake]
  refine ⟨_, hl.expand hsearch hnew fun y hy => ?_⟩
  rw [hparent, Nat.sub_add_cancel (hpos y hy)]

/-- A search that succeeds stops with the class it looks for at the head of the queue. -/
theorem bfsLoop_found (hg : AdjValid g) {fuel head : ℕ} {s : LockdepBfs}
    (i : BfsInv g src dst head s) (l : BfsLayers g src head s)
    (hfound : (bfsLoop g.adj dst fuel head s).1 = true) :
    ∃ done queue depth, Search (Ordered g) src done (dst :: queue) ∧
      Layered (Ordered g) src done (dst :: queue) depth
        (fun x => (bfsLoop g.adj dst fuel head s).2.bfsParent (x - 1)) ∧
      done.length < LOCKDEP_MAX_CLASSES ∧ ∀ x ∈ done ++ dst :: queue, 0 < x := by
  induction fuel generalizing head s with
  | zero => exact absurd hfound Bool.false_ne_true
  | succ fuel ih =>
    simp only [bfsLoop] at hfound ⊢
    cases hcur : s.bfsQueue[head]? with
    | none => rw [hcur] at hfound; exact absurd hfound Bool.false_ne_true
    | some cur =>
      rw [hcur] at hfound
      dsimp only at hfound ⊢
      split_ifs at hfound ⊢ with hdst
      · obtain ⟨hlt, hdrop, -⟩ := queue_split hcur
        rw [hdst] at hdrop
        obtain ⟨depth, hl⟩ := l
        have hs := i.search
        rw [hdrop] at hl hs
        refine ⟨_, _, depth, hs, hl, ?_, fun x hx => ?_⟩
        · rw [length_take]
          have := i.length_le
          omega
        · rw [← hdrop, take_append_drop] at hx
          exact (i.range x hx).1
      · exact ih (i.expand hg hcur hdst) (l.expand hg i hcur) hfound

/-- What `bfsFind` leaves in the scratch when it succeeds. -/
theorem bfsFind_found (hg : AdjValid g) (h1 : 0 < src) (h2 : src ≤ LOCKDEP_MAX_CLASSES)
    (hfound : (bfsFind g src dst).1 = true) :
    ∃ done queue depth, Search (Ordered g) src done (dst :: queue) ∧
      Layered (Ordered g) src done (dst :: queue) depth
        (fun x => (bfsFind g src dst).2.bfs.bfsParent (x - 1)) ∧
      done.length < LOCKDEP_MAX_CLASSES ∧ ∀ x ∈ done ++ dst :: queue, 0 < x :=
  have i := BfsInv.init g dst (Function.update g.bfs.bfsParent (src - 1) 0) h1 h2
  have hloop : (bfsLoop g.adj dst (LOCKDEP_MAX_CLASSES + 1) 0 ⟨[src],
      Function.update g.bfs.bfsParent (src - 1) 0,
      setBit (fun _ => 0) ((src - 1) / 64) ((src - 1) % 64)⟩).1 = true := hfound
  bfsLoop_found hg i ⟨_, .init _ _ _⟩ hloop

end Search

/-! ## The chain -/

/-- The parents lead from a class back to the source in as many steps as the class is deep. -/
theorem parentChain_spec {R : ℕ → ℕ → Prop} {parent depth : ℕ → ℕ} {src : ℕ} {done queue : List ℕ}
    (l : Layered R src done queue depth fun x => parent (x - 1))
    (hpos : ∀ x ∈ done ++ queue, 0 < x) {fuel x : ℕ} (hx : x ∈ done ++ queue)
    (hfuel : depth x < fuel) :
    (parentChain parent src fuel x).length = depth x + 1 ∧
      (parentChain parent src fuel x).head? = some x ∧
      (parentChain parent src fuel x).getLast? = some src ∧
      (parentChain parent src fuel x).IsChain fun a b => R b a := by
  induction fuel generalizing x with
  | zero => omega
  | succ fuel ih =>
    rw [parentChain, if_neg (hpos x hx).ne']
    split_ifs with hsrc
    · subst hsrc
      exact ⟨by rw [l.depth_src]; rfl, rfl, rfl, isChain_singleton _⟩
    · obtain ⟨hdone, hedge, hdepth⟩ := l.parent_spec x hx hsrc
      obtain ⟨hlen, hhead, hlast, hchain⟩ := ih (mem_append_left _ hdone) (by omega)
      refine ⟨?_, rfl, ?_, isChain_cons.2 ⟨fun b hb => ?_, hchain⟩⟩
      · rw [length_cons, hlen, hdepth]
      · rw [getLast?_cons, hlast, Option.getD_some]
      · rw [hhead, Option.mem_some_iff] at hb
        exact hb ▸ hedge

/-- What a report of an inversion shows: a chain of recorded edges from the new class to the held
one, or the end of it. -/
structure GenuineChain (g : LockdepGraph) (f : LockdepFinding) : Prop where
  length_eq : f.pathClass.length = f.pathLen + 1
  chain : f.pathClass.IsChain fun a b => ⟨a, b⟩ ∈ g.edges
  getLast : f.pathClass.getLast? = some f.heldClass
  head : f.pathTruncated = false → f.pathClass.head? = some f.newClass
  pathLen_le : f.pathLen ≤ LOCKDEP_MAX_PATH
  shortest : ∃ n, Distance (fun a b => ⟨a, b⟩ ∈ g.edges) n f.newClass f.heldClass ∧
    (f.pathTruncated = true ↔ LOCKDEP_MAX_PATH < n) ∧ (f.pathTruncated = false → f.pathLen = n)

variable {g : LockdepGraph}

/-- The edges of the table are those that the search follows. -/
theorem Tables.ordered_eq (t : Tables g) : Ordered g = fun a b => ⟨a, b⟩ ∈ g.edges := by
  funext a b
  refine propext ⟨fun h => (t.mem_iff a b h.1 h.2.1).1 h.2.2, fun h => ?_⟩
  have hv := t.valid _ h
  exact ⟨hv.1.1, hv.2.1, (t.mem_iff a b hv.1.1 hv.2.1).2 h⟩

variable {f : LockdepFinding}

/-- The path that is built after a search that succeeded. -/
theorem buildPath_genuine (t : Tables g) {src dst : ℕ} (h1 : 0 < src)
    (h2 : src ≤ LOCKDEP_MAX_CLASSES) (hfound : (bfsFind g src dst).1 = true)
    (hnew : f.newClass = src) (hheld : f.heldClass = dst) :
    GenuineChain g (buildPath (bfsFind g src dst).2 src dst f) := by
  obtain ⟨done, queue, depth, hsearch, hl, hlen, hpos⟩ := bfsFind_found t.adjValid h1 h2 hfound
  have hdst : dst ∈ done ++ dst :: queue := by simp
  have hdepth : depth dst < LOCKDEP_MAX_CLASSES + 1 := by
    have := hl.depth_le dst hdst
    omega
  obtain ⟨hlen, hhead, hlast, hchain⟩ := parentChain_spec hl hpos hdst hdepth
  have hdist := hl.distance hsearch
  rw [t.ordered_eq] at hchain hdist
  simp only [buildPath]
  generalize parentChain (bfsFind g src dst).2.bfs.bfsParent src (LOCKDEP_MAX_CLASSES + 1) dst =
    chain at hlen hhead hlast hchain
  have htake : (chain.take (LOCKDEP_MAX_PATH + 1)).length =
      min (LOCKDEP_MAX_PATH + 1) (depth dst + 1) := by
    rw [length_take, hlen]
  have htrunc : chain.length > (chain.take (LOCKDEP_MAX_PATH + 1)).length ↔
      LOCKDEP_MAX_PATH < depth dst := by
    omega
  refine ⟨?_, ?_, ?_, fun hf => ?_, ?_, depth dst, ?_, ?_, fun hf => ?_⟩
  · dsimp only
    rw [length_reverse, htake]
    omega
  · exact isChain_reverse.2 (hchain.take _)
  · rw [getLast?_reverse, head?_take, if_neg (Nat.succ_ne_zero _), hhead, hheld]
  · -- A chain that is not cut is copied as a whole.
    rw [decide_eq_false_iff_not, htrunc, Nat.not_lt] at hf
    rw [head?_reverse, take_of_length_le (by omega), hlast, hnew]
  · dsimp only
    rw [htake]
    omega
  · rwa [hnew, hheld]
  · rw [decide_eq_true_iff, htrunc]
  · rw [decide_eq_false_iff_not, htrunc, Nat.not_lt] at hf
    dsimp only
    omega

/-! ## The check -/

/-- Only the last loop of the check reports an inversion, and it shows a genuine chain to a held
lock of the segment. -/
theorem lockdepCoreCheckAcquire_genuine {hs : LockdepHeldStack}
    {inst classId : ℕ} {irqCtx : BitVec 8} {irqsOn trylock : Bool} (t : Tables g)
    (hid : 0 < classId ∧ classId ≤ g.classes.length)
    (hf : (lockdepCoreCheckAcquire g hs inst classId irqCtx irqsOn trylock).1 = some f)
    (hkind : f.kind = .inversion) :
    f.newClass = classId ∧ (∃ h ∈ segment hs irqCtx, h.classId = f.heldClass) ∧
      GenuineChain g f := by
  have hends := lockdepCoreCheckAcquire_ends g hs inst classId irqCtx irqsOn trylock
  generalize lockdepCoreCheckAcquire g hs inst classId irqCtx irqsOn trylock = r at hends hf
  cases hends with
  | early h =>
    cases hf
    simp [hkind] at h
  | conflict h =>
    cases hf
    rw [irqConflict_kind h] at hkind
    cases hkind
  | passed => cases hf
  | loop _ _ hloop =>
    cases hloop with
    | clear => cases hf
    | @found e i bfs he hfound =>
      cases hf
      -- The scratch is no part of the tables, nor of what a chain says.
      have t' : Tables { g with bfs := bfs } := ⟨t.classes_le, t.nodup, t.mem_iff, t.valid⟩
      obtain ⟨hlen, hchain, hlast, hhead, hle, hshort⟩ := buildPath_genuine t' hid.1
        (hid.2.trans t.classes_le) hfound
        (f := ⟨.inversion, classId, e.classId, i, 0, 0, false, 0, false, []⟩) rfl rfl
      exact ⟨rfl, ⟨e, he, rfl⟩, hlen, hchain, hlast, hhead, hle, hshort⟩

/-- Whatever the validator has seen, on any number of CPUs: the report of an inversion shows a chain
of recorded edges from the new class to a held one, a shortest one, cut at its start if it is longer
than a report has room for. -/
theorem lockdep_inversionChain {w : LockdepWorld} (h : Run LockdepStep .init w)
    (cpu «instance» classId : ℕ) (irqCtx : BitVec 8) (irqsOn trylock : Bool)
    (hid : 0 < classId ∧ classId ≤ w.graph.classes.length) {f : LockdepFinding}
    (hf : (lockdepCoreCheckAcquire w.graph (w.held cpu) «instance» classId irqCtx irqsOn
      trylock).1 = some f)
    (hkind : f.kind = .inversion) :
    f.newClass = classId ∧ (∃ h ∈ segment (w.held cpu) irqCtx, h.classId = f.heldClass) ∧
      GenuineChain w.graph f := by
  have hw := h.invariant LockdepInv.init LockdepInv.step
  exact lockdepCoreCheckAcquire_genuine hw.tables hid hf hkind

/-- Three locks taken pairwise in one order, and then the last before the first: the report shows
the two edges from the first to the last. -/
theorem lockdep_inversionChain_threeLocks :
    ∃ (w : LockdepWorld) (f : LockdepFinding), Run LockdepStep .init w ∧
      (lockdepCoreCheckAcquire w.graph (w.held 2) 11 1 0 false false).1 = some f ∧
      f.pathClass = [1, 2, 3] ∧ GenuineChain w.graph f := by
  have hevents : AllAllowed (fun w (e : LockdepEvent) => e.Legal w) (fun w e => e.next w) .init
      [.classOf 1 1, .classOf 2 2, .classOf 3 3, .acquire 0 10 1 0 false false,
        .acquire 0 20 2 0 false false, .acquire 1 21 2 0 false false, .acquire 1 30 3 0 false false,
        .acquire 2 31 3 0 false false] := by decide +kernel
  have hrun : Run LockdepStep .init _ := hevents.run
  refine ⟨_, ⟨.inversion, 1, 3, 0, 0, 0, false, 2, false, [1, 2, 3]⟩,
    hrun, by decide +kernel, rfl, ?_⟩
  exact (lockdep_inversionChain hrun 2 11 1 0 false false (by decide +kernel) (by decide +kernel)
    rfl).2.2

end Bongos.Sync
