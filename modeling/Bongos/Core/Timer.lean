import Bongos.Status
import Mathlib.Algebra.Group.Nat.Defs
import Mathlib.Logic.Function.Basic

/-!
# The timer queue

The timer heap of `time-core.c` and the timers of `timekeeping.c`: arming, cancelling and
re-initialising a timer, and the pass of the timer interrupt, which moves the timers that are due
into a list linked through the timer objects and then runs their callbacks. Pointers are numbers
with `0` for `NULL`. The hardware is not modelled: `reprogram` only reads the queue, and the time of
an interrupt is an argument. What a callback does is a list of operations that may depend on the
whole state; it is the callback's only effect on the queue.
-/

namespace Bongos.Core

def TIMER_HEAP_CAP : ℕ := 256

/-- The states of a timer; an expired one waits for its callback. -/
inductive TimerState where
  | idle
  | armed
  | expired
  deriving DecidableEq

structure TimerObj where
  deadlineNs : BitVec 64
  seq : BitVec 64
  fn : ℕ
  ctx : ℕ
  batchNext : ℕ
  heapIndex : ℕ
  state : TimerState
  deriving DecidableEq

/-- `bsp.heap`, which is `slot`, `count` and `nextSeq`, the timer objects, and `timersReady`. -/
@[ext] structure TimerSys where
  slot : ℕ → ℕ
  count : ℕ
  nextSeq : BitVec 64
  timer : ℕ → TimerObj
  timersReady : Bool

variable (s : TimerSys)

/-- A write to fields of one timer object. -/
def TimerSys.modify (t : ℕ) (f : TimerObj → TimerObj) : TimerSys :=
  { s with timer := Function.update s.timer t (f (s.timer t)) }

/-- A write to the state of a timer. -/
def TimerSys.setState (t : ℕ) (state : TimerState) : TimerSys :=
  s.modify t fun o => { o with state := state }

/-! ## The heap -/

def timerBefore (a b : TimerObj) : Bool :=
  a.deadlineNs < b.deadlineNs || (a.deadlineNs == b.deadlineNs && a.seq < b.seq)

def heapPlace (i t : ℕ) : TimerSys :=
  { s with slot := Function.update s.slot i t }.modify t fun o => { o with heapIndex := i }

/-- The loop of `siftUp`, and the write that ends it. From position `i`, `i` rounds are enough. -/
def siftUpLoop (t : ℕ) : ℕ → ℕ → TimerSys → TimerSys
  | 0, i, s => heapPlace s i t
  | fuel + 1, i, s =>
    if 0 < i then
      let parent := (i - 1) / 2
      if !timerBefore (s.timer t) (s.timer (s.slot parent)) then heapPlace s i t
      else siftUpLoop t fuel parent (heapPlace s i (s.slot parent))
    else heapPlace s i t

def siftUp (i : ℕ) : TimerSys := siftUpLoop (s.slot i) i i s

/-- The loop of `siftDown`, and the write that ends it. `count` rounds are enough. -/
def siftDownLoop (t : ℕ) : ℕ → ℕ → TimerSys → TimerSys
  | 0, i, s => heapPlace s i t
  | fuel + 1, i, s =>
    let child := 2 * i + 1
    if child ≥ s.count then heapPlace s i t
    else
      let child :=
        if child + 1 < s.count &&
            timerBefore (s.timer (s.slot (child + 1))) (s.timer (s.slot child)) then child + 1
        else child
      if !timerBefore (s.timer (s.slot child)) (s.timer t) then heapPlace s i t
      else siftDownLoop t fuel child (heapPlace s i (s.slot child))

def siftDown (i : ℕ) : TimerSys := siftDownLoop (s.slot i) s.count i s

def timerHeapInit : TimerSys :=
  { s with slot := fun _ => 0, count := 0, nextSeq := 0 }

def timerHeapInsert (t : ℕ) : Status × TimerSys :=
  if s.count ≥ TIMER_HEAP_CAP then (.errNoMemory, s)
  else
    let i := s.count
    let s := { s.modify t fun o => { o with seq := s.nextSeq, state := .armed } with
      nextSeq := s.nextSeq + 1, count := s.count + 1 }
    (.ok, siftUp (heapPlace s i t) i)

def timerHeapRemove (t : ℕ) : TimerSys :=
  let i := (s.timer t).heapIndex
  let last := s.count - 1
  let moved := s.slot last
  let s := { s with count := last, slot := Function.update s.slot last 0 }
  if i = last then s
  else
    let s := heapPlace s i moved
    if 0 < i && timerBefore (s.timer moved) (s.timer (s.slot ((i - 1) / 2))) then siftUp s i
    else siftDown s i

def timerHeapPeek : ℕ := if s.count = 0 then 0 else s.slot 0

def timerHeapPop : ℕ × TimerSys :=
  let t := timerHeapPeek s
  (t, if t ≠ 0 then timerHeapRemove s t else s)

def timerHeapCheck : Bool :=
  s.count ≤ TIMER_HEAP_CAP &&
    ((List.range s.count).all fun i =>
      s.slot i ≠ 0 && (s.timer (s.slot i)).heapIndex = i &&
        !(0 < i && timerBefore (s.timer (s.slot i)) (s.timer (s.slot ((i - 1) / 2))))) &&
    (List.range' s.count (TIMER_HEAP_CAP - s.count)).all fun i => s.slot i = 0

/-! ## Timers -/

/-- The timer part of `timeInit`, which empties the heap and lets timers be armed. -/
def timeInit : TimerSys :=
  { s with slot := fun _ => 0, count := 0, nextSeq := 0, timersReady := true }

/-- `timerInit`; a `NULL` timer or callback panics there. -/
def timerInit (t fn ctx : ℕ) : TimerSys :=
  s.modify t fun o =>
    { o with deadlineNs := 0, seq := 0, fn := fn, ctx := ctx, heapIndex := 0, state := .idle }

/-- The first write of `timerArm`: a timer that is armed already leaves the heap. -/
def timerDequeue (t : ℕ) : TimerSys :=
  if (s.timer t).state = .armed then
    (timerHeapRemove s t).setState t .idle
  else s

def timerArm (t : ℕ) (deadlineNs : BitVec 64) : Status × TimerSys :=
  if t = 0 || (s.timer t).fn = 0 || !s.timersReady then (.errInvalid, s)
  else
    let s := timerDequeue s t
    let oldDeadline := (s.timer t).deadlineNs
    let s := s.modify t fun o => { o with deadlineNs := deadlineNs }
    match timerHeapInsert s t with
    | (.ok, s) => (.ok, s)
    | (st, s) => (st, s.modify t fun o => { o with deadlineNs := oldDeadline })

def timerCancel (t : ℕ) : Status × TimerSys :=
  if t = 0 then (.errInvalid, s)
  else match (s.timer t).state with
    | .armed => (.ok, (timerHeapRemove s t).setState t .idle)
    | .expired => (.ok, s.setState t .idle)
    | .idle => (.errNotFound, s)

/-- An operation on a timer, by a callback or by other code. -/
inductive TimerOp where
  | arm (t : ℕ) (deadlineNs : BitVec 64)
  | cancel (t : ℕ)
  | init (t fn ctx : ℕ)
  deriving DecidableEq

/-- An operation, with what it returns. -/
def runOp : TimerOp → Status × TimerSys
  | .arm t deadlineNs => timerArm s t deadlineNs
  | .cancel t => timerCancel s t
  | .init t fn ctx => (.ok, timerInit s t fn ctx)

/-- Operations one after the other, with what each returns. -/
def runOps : List TimerOp → TimerSys → List (TimerOp × Status) × TimerSys
  | [], s => ([], s)
  | op :: ops, s =>
    let (st, s) := runOp s op
    let (log, s) := runOps ops s
    ((op, st) :: log, s)

/-! ## The interrupt -/

/-- What a callback does, in the state in which it is called with a timer. -/
abbrev Callbacks := TimerSys → ℕ → List TimerOp

/-- A callback that ran: its timer, and its operations with their results. -/
structure Fired where
  timer : ℕ
  log : List (TimerOp × Status)
  deriving DecidableEq

/-- One round of the first loop of `timeTimerIrq`: `t` leaves the heap, and the last timer of the
list, if there is one, links to it. -/
def expireOne (tail t : ℕ) : TimerSys :=
  let s := (timerHeapRemove s t).modify t fun o => { o with state := .expired, batchNext := 0 }
  if tail = 0 then s else s.modify tail fun o => { o with batchNext := t }

/-- The first loop of `timeTimerIrq`, which returns `head`. Every round takes a timer off the heap,
so `count` rounds are enough. -/
def collectDue (now : BitVec 64) : ℕ → ℕ → ℕ → TimerSys → ℕ × TimerSys
  | 0, head, _, s => (head, s)
  | fuel + 1, head, tail, s =>
    let t := timerHeapPeek s
    if t ≠ 0 ∧ (s.timer t).deadlineNs ≤ now then
      collectDue now fuel (if tail = 0 then t else head) t (expireOne s tail t)
    else (head, s)

/-- The second loop of `timeTimerIrq`, from timer `t` on; `none` if it does not end within the
rounds. -/
def dispatch (callbacks : Callbacks) : ℕ → ℕ → TimerSys → Option (List Fired × TimerSys)
  | 0, t, s => if t = 0 then some ([], s) else none
  | fuel + 1, t, s =>
    if t = 0 then some ([], s)
    else
      let next := (s.timer t).batchNext
      if (s.timer t).state = .expired then
        let s := s.setState t .idle
        let (log, s) := runOps (callbacks s t) s
        (dispatch callbacks fuel next s).map fun (fired, s) => (⟨t, log⟩ :: fired, s)
      else dispatch callbacks fuel next s

/-- `timeTimerIrq`: the callbacks that ran, in order, and the state afterwards. -/
def timeTimerIrq (callbacks : Callbacks) (now : BitVec 64) (s : TimerSys) :
    Option (List Fired × TimerSys) :=
  let (head, s) := collectDue now s.count 0 0 s
  dispatch callbacks TIMER_HEAP_CAP head s

end Bongos.Core
