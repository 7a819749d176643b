import Bongos.Bits
import Mathlib.Data.List.Basic

/-!
# The lock validator

`lockdep-core.c`: the lock classes, the graph of the orders in which they were taken, the stack of
held locks of a CPU, and the check and the record of an acquire and of a release. A class is its id,
counted from one. Pointers are numbers with `0` for `NULL`; the captured stack traces and the call
sites are not modelled, since no check reads them. The counts of the source are the lengths of lists
here. `lockdepAcquireCore` is what `lockdepAcquire` does with the class it resolved: the check, and
then the record, with edges only if the check found nothing.
-/

namespace Bongos.Sync

def LOCKDEP_MAX_CLASSES : ℕ := 256

def LOCKDEP_MAX_EDGES : ℕ := 512

/-- `LOCKDEP_MAX_HELD`: the held locks of a CPU. -/
def LOCKDEP_MAX_HELD : ℕ := 16

/-- `LOCKDEP_MAX_PATH`: the edges that a report shows. -/
def LOCKDEP_MAX_PATH : ℕ := 16

/-- `LOCKDEP_USAGE_IN_HARDIRQ`, a bit of `usageMask`. -/
def LOCKDEP_USAGE_IN_HARDIRQ : ℕ := 0

/-- `LOCKDEP_USAGE_IRQS_ON`, a bit of `usageMask`. -/
def LOCKDEP_USAGE_IRQS_ON : ℕ := 1

structure LockdepClass where
  key : ℕ
  name : ℕ
  usageMask : BitVec 8
  deriving DecidableEq

/-- `LockdepEdge`: `from` was held while `to` was acquired. -/
structure LockdepEdge where
  «from» : ℕ
  «to» : ℕ
  deriving DecidableEq

structure LockdepHeld where
  «instance» : ℕ
  classId : ℕ
  irqCtx : BitVec 8
  trylock : Bool
  irqsOn : Bool
  deriving DecidableEq

/-- `LockdepHeldStack`, the lowest entry first. -/
abbrev LockdepHeldStack := List LockdepHeld

/-- The scratch of the search: `bfsQueue` up to its tail, `bfsParent`, and `bfsSeen`. -/
structure LockdepBfs where
  bfsQueue : List ℕ
  bfsParent : ℕ → ℕ
  bfsSeen : ℕ → BitVec 64

/-- `LockdepGraph`. `adj` holds a row of words for each class: bit `to - 1` of row `from - 1`. -/
structure LockdepGraph where
  classes : List LockdepClass
  adj : ℕ → ℕ → BitVec 64
  edges : List LockdepEdge
  bfs : LockdepBfs

/-- The all-zero graph. -/
def LockdepGraph.zero : LockdepGraph := ⟨[], fun _ _ => 0, [], ⟨[], fun _ => 0, fun _ => 0⟩⟩

inductive LockdepVerdict where
  | ok
  | inversion
  | recursion
  | irqInconsistent
  | notHeld
  | heldOverflow
  | badInit
  | full
  deriving DecidableEq

structure LockdepFinding where
  kind : LockdepVerdict
  newClass : ℕ
  heldClass : ℕ := 0
  heldIndex : ℕ := 0
  usageNew : ℕ := 0
  usageOld : ℕ := 0
  sameInstance : Bool := false
  pathLen : ℕ := 0
  pathTruncated : Bool := false
  pathClass : List ℕ := []
  deriving DecidableEq

/-! ## The graph -/

variable (g : LockdepGraph)

def adjTest («from» «to» : ℕ) : Bool := bitTest (g.adj («from» - 1)) («to» - 1)

def adjSet («from» «to» : ℕ) : LockdepGraph :=
  { g with
    adj := Function.update g.adj («from» - 1)
      (setBit (g.adj («from» - 1)) ((«to» - 1) / 64) ((«to» - 1) % 64)) }

/-- `lockdepCoreClassOf`: finds or registers the class of a key. -/
def lockdepCoreClassOf (key name : ℕ) : LockdepVerdict × ℕ × LockdepGraph :=
  if key = 0 ∨ name = 0 then (.badInit, 0, g)
  else match g.classes.findIdx? fun c => c.key = key with
    | some i => (.ok, i + 1, g)
    | none =>
      if g.classes.length = LOCKDEP_MAX_CLASSES then (.full, 0, g)
      else (.ok, g.classes.length + 1, { g with classes := g.classes ++ [⟨key, name, 0⟩] })

/-- One round of the loop of `bfsFind` over the bits of a word: the class of bit `b` of word `w` is
new, and `cur` found it. -/
def bfsPush (cur w : ℕ) (s : LockdepBfs) (b : ℕ) : LockdepBfs where
  bfsSeen := setBit s.bfsSeen w b
  bfsParent := Function.update s.bfsParent (w * 64 + b) cur
  bfsQueue := s.bfsQueue ++ [w * 64 + b + 1]

/-- One round of the loop of `bfsFind` over the words of a row. -/
def bfsWord (row : ℕ → BitVec 64) (cur : ℕ) (s : LockdepBfs) (w : ℕ) : LockdepBfs :=
  (setBits (row w &&& ~~~ s.bfsSeen w).toNat).foldl (bfsPush cur w) s

/-- The loop of `bfsFind` from `head` on. A class is queued once, so `LOCKDEP_MAX_CLASSES` rounds
are enough. -/
def bfsLoop (adj : ℕ → ℕ → BitVec 64) (dst : ℕ) : ℕ → ℕ → LockdepBfs → Bool × LockdepBfs
  | 0, _, s => (false, s)
  | fuel + 1, head, s =>
    match s.bfsQueue[head]? with
    | none => (false, s)
    | some cur =>
      if cur = dst then (true, s)
      else bfsLoop adj dst fuel (head + 1)
        ((List.range (LOCKDEP_MAX_CLASSES / 64)).foldl (bfsWord (adj (cur - 1)) cur) s)

/-- `bfsFind`: searches for `dst` from `src`. -/
def bfsFind (src dst : ℕ) : Bool × LockdepGraph :=
  let s : LockdepBfs :=
    { bfsQueue := [src]
      bfsParent := Function.update g.bfs.bfsParent (src - 1) 0
      bfsSeen := setBit (fun _ => 0) ((src - 1) / 64) ((src - 1) % 64) }
  let (found, s) := bfsLoop g.adj dst (LOCKDEP_MAX_CLASSES + 1) 0 s
  (found, { g with bfs := s })

/-- The loop of `buildPath`: the chain from `x` back to `src`, at most `fuel` classes of it. -/
def parentChain (parent : ℕ → ℕ) (src : ℕ) : ℕ → ℕ → List ℕ
  | 0, _ => []
  | fuel + 1, x =>
    if x = 0 then []
    else if x = src then [x]
    else x :: parentChain parent src fuel (parent (x - 1))

/-- `buildPath`: the end of the chain from `src` to `dst` that the search found. -/
def buildPath (src dst : ℕ) (f : LockdepFinding) : LockdepFinding :=
  let chain := parentChain g.bfs.bfsParent src (LOCKDEP_MAX_CLASSES + 1) dst
  let rev := chain.take (LOCKDEP_MAX_PATH + 1)
  { f with
    pathTruncated := chain.length > rev.length
    pathLen := rev.length - 1
    pathClass := rev.reverse }

/-! ## Acquiring -/

variable (hs : LockdepHeldStack)

/-- The loop of `segmentBase`, from an index down. -/
def segmentBaseFrom (irqCtx : BitVec 8) : ℕ → ℕ
  | 0 => 0
  | base + 1 =>
    match hs[base]? with
    | some h => if h.irqCtx = irqCtx then segmentBaseFrom irqCtx base else base + 1
    | none => base + 1

/-- `segmentBase`: the lowest entry of the topmost run in the same context. -/
def segmentBase (irqCtx : BitVec 8) : ℕ :=
  segmentBaseFrom hs irqCtx hs.length

/-- The held locks of the current context segment. -/
def segment (irqCtx : BitVec 8) : List LockdepHeld :=
  hs.drop (segmentBase hs irqCtx)

/-- The last loop of `lockdepCoreCheckAcquire`, over the entries of the segment from index `i`. -/
def inversionLoop (classId : ℕ) : ℕ → List LockdepHeld → LockdepGraph →
    Option LockdepFinding × LockdepGraph
  | _, [], g => (none, g)
  | i, h :: hs, g =>
    if h.classId = classId ∨ adjTest g h.classId classId then inversionLoop classId (i + 1) hs g
    else match bfsFind g classId h.classId with
      | (true, g) =>
        (some (buildPath g classId h.classId
          { kind := .inversion, newClass := classId, heldClass := h.classId, heldIndex := i }), g)
      | (false, g) => inversionLoop classId (i + 1) hs g

/-- The class conflicts with an earlier use in the other kind of context. -/
def irqConflict (classId : ℕ) (irqCtx : BitVec 8) (irqsOn : Bool) : Option LockdepFinding :=
  let usageMask := (g.classes.getD (classId - 1) ⟨0, 0, 0⟩).usageMask
  if irqCtx ≠ 0 ∧ usageMask.getLsbD LOCKDEP_USAGE_IRQS_ON then
    some { kind := .irqInconsistent, newClass := classId,
           usageNew := LOCKDEP_USAGE_IN_HARDIRQ, usageOld := LOCKDEP_USAGE_IRQS_ON }
  else if irqCtx = 0 ∧ irqsOn ∧ usageMask.getLsbD LOCKDEP_USAGE_IN_HARDIRQ then
    some { kind := .irqInconsistent, newClass := classId,
           usageNew := LOCKDEP_USAGE_IRQS_ON, usageOld := LOCKDEP_USAGE_IN_HARDIRQ }
  else none

/-- `lockdepCoreCheckAcquire`: the first finding, if there is one. Only the scratch of the graph
changes. -/
def lockdepCoreCheckAcquire («instance» classId : ℕ)
    (irqCtx : BitVec 8) (irqsOn trylock : Bool) : Option LockdepFinding × LockdepGraph :=
  if hs.length ≥ LOCKDEP_MAX_HELD then (some { kind := .heldOverflow, newClass := classId }, g)
  else match hs.findIdx? fun h => h.instance = «instance» with
    | some i =>
      (some { kind := .recursion, newClass := classId, heldClass := classId, heldIndex := i,
              sameInstance := true }, g)
    | none =>
      let base := segmentBase hs irqCtx
      match if trylock then none else (segment hs irqCtx).findIdx? fun h => h.classId = classId with
      | some i =>
        (some { kind := .recursion, newClass := classId, heldClass := classId,
                heldIndex := base + i }, g)
      | none =>
        match irqConflict g classId irqCtx irqsOn with
        | some f => (some f, g)
        | none => if trylock then (none, g) else inversionLoop classId base (segment hs irqCtx) g

/-- The verdict of a check. -/
def verdictOf : Option LockdepFinding → LockdepVerdict
  | none => .ok
  | some f => f.kind

def markUsage (classId usage : ℕ) : LockdepGraph :=
  { g with
    classes := g.classes.modify (classId - 1) fun c =>
      { c with usageMask := c.usageMask ||| 1#8 <<< usage } }

/-- The usage that `lockdepCoreCommitAcquire` marks. -/
def markAcquire (classId : ℕ) (irqCtx : BitVec 8) (irqsOn : Bool) : LockdepGraph :=
  if irqCtx ≠ 0 then markUsage g classId LOCKDEP_USAGE_IN_HARDIRQ
  else if irqsOn then markUsage g classId LOCKDEP_USAGE_IRQS_ON
  else g

/-- The loop of `lockdepCoreCommitAcquire` over the entries of the segment. -/
def commitEdges (classId : ℕ) : List LockdepHeld → LockdepGraph → LockdepVerdict × LockdepGraph
  | [], g => (.ok, g)
  | h :: hs, g =>
    if h.classId = classId ∨ adjTest g h.classId classId then commitEdges classId hs g
    else if g.edges.length = LOCKDEP_MAX_EDGES then (.full, (commitEdges classId hs g).2)
    else commitEdges classId hs
      (adjSet { g with edges := g.edges ++ [⟨h.classId, classId⟩] } h.classId classId)

def lockdepCoreCommitAcquire («instance» classId : ℕ)
    (irqCtx : BitVec 8) (irqsOn trylock addEdges : Bool) :
    LockdepVerdict × LockdepGraph × LockdepHeldStack :=
  let g := markAcquire g classId irqCtx irqsOn
  let (result, g) :=
    if !trylock && addEdges then commitEdges classId (segment hs irqCtx) g else (.ok, g)
  let hs :=
    if hs.length < LOCKDEP_MAX_HELD then hs ++ [⟨«instance», classId, irqCtx, trylock, irqsOn⟩]
    else hs
  (result, g, hs)

/-- The core of `lockdepAcquire`: the check, and the record of what it let through. -/
def lockdepAcquireCore («instance» classId : ℕ)
    (irqCtx : BitVec 8) (irqsOn trylock : Bool) : LockdepGraph × LockdepHeldStack :=
  let (f, g) := lockdepCoreCheckAcquire g hs «instance» classId irqCtx irqsOn trylock
  let (_, g, hs) := lockdepCoreCommitAcquire g hs «instance» classId irqCtx irqsOn trylock
    (verdictOf f = .ok)
  (g, hs)

/-! ## Releasing -/

/-- `heldFind`: the topmost entry of a lock. -/
def heldFind («instance» : ℕ) : Option ℕ :=
  (hs.reverse.findIdx? fun h => h.instance = «instance»).map fun i => hs.length - 1 - i

/-- `lockdepCoreCheckRelease`: the finding, if there is one. -/
def lockdepCoreCheckRelease («instance» : ℕ) (irqsOn : Bool) : Option LockdepFinding :=
  match heldFind hs «instance» with
  | none => some { kind := .notHeld, newClass := 0 }
  | some idx =>
    match hs[idx]? with
    -- Not reached: the index is in the stack.
    | none => none
    | some h =>
      if h.irqCtx = 0 ∧ h.irqsOn = false ∧ irqsOn ∧
          (g.classes.getD (h.classId - 1) ⟨0, 0, 0⟩).usageMask.getLsbD LOCKDEP_USAGE_IN_HARDIRQ then
        some { kind := .irqInconsistent, newClass := h.classId, heldIndex := idx,
               usageNew := LOCKDEP_USAGE_IRQS_ON, usageOld := LOCKDEP_USAGE_IN_HARDIRQ }
      else none

def lockdepCoreCommitRelease («instance» : ℕ) (irqsOn : Bool) : LockdepGraph × LockdepHeldStack :=
  match heldFind hs «instance» with
  | none => (g, hs)
  | some idx =>
    match hs[idx]? with
    | none => (g, hs)
    | some h =>
      (if h.irqCtx = 0 ∧ irqsOn then markUsage g h.classId LOCKDEP_USAGE_IRQS_ON else g,
        hs.eraseIdx idx)

end Bongos.Sync
