import Bongos.FallibleState
import Bongos.Mm.KernelLayout
import Bongos.Status
import Mathlib.Data.List.Basic
import Mathlib.Order.Nat

/-!
# The kernel virtual area allocator

`kva.c`: the free parts of an area, kept as a sorted table of extents. The table is an array with a
count, and the loops that move its entries are those of the source. What callers hold is not
recorded in it; only their number is.

`KvaState.free` is the table as a list, and for each write of the source there is a lemma about it:
the loops that close and open a place in the array are `shiftDown` and `shiftUp`.
-/

namespace Bongos.Mm

open FallibleState List

open Function (update update_of_ne update_self)

def KVA_MAX_EXTENTS : ℕ := 512

/-- `KvaExtent`: a free range. -/
structure KvaExtent where
  start : ℕ
  «end» : ℕ
  deriving DecidableEq

structure KvaState where
  base : ℕ
  «end» : ℕ
  extents : ℕ → KvaExtent
  count : ℕ
  liveCount : ℕ

def kvaStateInit (st : KvaState) (base «end» : ℕ) : KvaState where
  base := base
  «end» := «end»
  extents := update st.extents 0 ⟨base, «end»⟩
  count := 1
  liveCount := 0

/-- The loop `for (j = i; j + 1 < count; j++) extents[j] = extents[j + 1]`, over the number of
rounds left. -/
def shiftDown : ℕ → ℕ → (ℕ → KvaExtent) → ℕ → KvaExtent
  | 0, _, extents => extents
  | n + 1, j, extents => shiftDown n (j + 1) (update extents j (extents (j + 1)))

/-- The loop `for (j = count; j > idx; j--) extents[j] = extents[j - 1]`, over the number of rounds
left. -/
def shiftUp : ℕ → ℕ → (ℕ → KvaExtent) → ℕ → KvaExtent
  | 0, _, extents => extents
  | n + 1, j, extents => shiftUp n (j - 1) (update extents j (extents (j - 1)))

/-- The extents without the one at `i`. -/
def removeExtent (st : KvaState) (i : ℕ) : KvaState :=
  { st with extents := shiftDown (st.count - 1 - i) i st.extents, count := st.count - 1 }

/-- `kvaAlloc`, with a place for the result. -/
def kvaAlloc (st : KvaState) (size : ℕ) : Except Status (ℕ × KvaState) :=
  if size = 0 ∨ size % KVA_PAGE_SIZE ≠ 0 then .error .errInvalid
  else
    let need := (size + 2 * KVA_GUARD_SIZE) % 2^64
    if need < size then .error .errInvalid
    else if st.liveCount ≥ KVA_MAX_EXTENTS - 1 then .error .errNoMemory
    else
      match (List.range st.count).find? fun i =>
        need ≤ (st.extents i).end - (st.extents i).start with
      | none => .error .errNoMemory
      | some i =>
        let start := (st.extents i).start
        let newStart := start + need
        let st' :=
          if newStart = (st.extents i).end then removeExtent st i
          else { st with
            extents := update st.extents i { st.extents i with start := newStart } }
        .ok (start + KVA_GUARD_SIZE, { st' with liveCount := st.liveCount + 1 })

/-- The search of `kvaFree`, over the number of extents left: the first that does not start before
`start`. -/
def kvaSeek (extents : ℕ → KvaExtent) (start : ℕ) : ℕ → ℕ → ℕ
  | 0, idx => idx
  | n + 1, idx => if (extents idx).start < start then kvaSeek extents start n (idx + 1) else idx

/-- A call: a `Status`, and the state as the writes before the return left it. -/
abbrev KvaM := ExceptT Status (StateM KvaState)

/-- The part of `kvaFree` that puts a range between its neighbours. -/
def kvaInsert (idx start «end» : ℕ) : KvaM Unit := do
  let st ← get
  let mergeLeft := 0 < idx ∧ (st.extents (idx - 1)).end = start
  let mergeRight := idx < st.count ∧ (st.extents idx).start = «end»
  if mergeLeft ∧ mergeRight then
    modify fun st => { st with
      extents := update st.extents (idx - 1)
        { st.extents (idx - 1) with «end» := (st.extents idx).end } }
    modify fun st => removeExtent st idx
  else if mergeLeft then
    modify fun st => { st with
      extents := update st.extents (idx - 1) { st.extents (idx - 1) with «end» := «end» } }
  else if mergeRight then
    modify fun st => { st with
      extents := update st.extents idx { st.extents idx with start := start } }
  else if st.count ≥ KVA_MAX_EXTENTS then throw .errInvalid
  else
    modify fun st => { st with extents := shiftUp (st.count - idx) st.count st.extents }
    modify fun st => { st with extents := update st.extents idx ⟨start, «end»⟩ }
    modify fun st => { st with count := st.count + 1 }

def kvaFree (va size : ℕ) : KvaM Unit := do
  let st ← get
  if size = 0 ∨ size % KVA_PAGE_SIZE ≠ 0 ∨ va < KVA_GUARD_SIZE then throw .errInvalid
  else
    let start := va - KVA_GUARD_SIZE
    let «end» := (va + size + KVA_GUARD_SIZE) % 2^64
    if «end» < va then throw .errInvalid
    else if start < st.base ∨ «end» > st.end then throw .errInvalid
    else
      let idx := kvaSeek st.extents start st.count 0
      if 0 < idx ∧ (st.extents (idx - 1)).end > start then throw .errInvalid
      else if idx < st.count ∧ (st.extents idx).start < «end» then throw .errInvalid
      else
        kvaInsert idx start «end»
        -- A 32-bit count: frees of what was never reserved take it below zero.
        modify fun st =>
          { st with liveCount := if st.liveCount = 0 then 2^32 - 1 else st.liveCount - 1 }

/-! ## The table as a list -/

/-- The free extents, in the order of the table. -/
def KvaState.free (st : KvaState) : List KvaExtent := (List.range st.count).map st.extents

variable {st : KvaState} {extents : ℕ → KvaExtent} {i j n k idx : ℕ}

@[simp]
theorem KvaState.length_free : st.free.length = st.count := by
  simp [KvaState.free]

/-- What `shiftDown` leaves in the array. -/
theorem shiftDown_apply : shiftDown n j extents k =
    if j ≤ k ∧ k < j + n then extents (k + 1) else extents k := by
  induction n generalizing j extents with
  | zero => simp [shiftDown, show ¬ (j ≤ k ∧ k < j) by omega]
  | succ n ih =>
    rw [shiftDown, ih]
    by_cases hk : k = j
    · subst hk
      simp
    · rw [update_of_ne hk]
      by_cases h : j + 1 ≤ k ∧ k < j + 1 + n
      · rw [if_pos h, if_pos (by omega), update_of_ne (by omega)]
      · rw [if_neg h, if_neg (by omega)]

/-- What `shiftUp` leaves in the array. -/
theorem shiftUp_apply (hn : n ≤ j) : shiftUp n j extents k =
    if j - n < k ∧ k ≤ j then extents (k - 1) else extents k := by
  induction n generalizing j extents with
  | zero => simp [shiftUp, show ¬ (j < k ∧ k ≤ j) by omega]
  | succ n ih =>
    rw [shiftUp, ih (by omega)]
    by_cases hk : k = j
    · subst hk
      rw [if_neg (by omega), update_self, if_pos (by omega)]
    · rw [update_of_ne hk]
      by_cases h : j - 1 - n < k ∧ k ≤ j - 1
      · rw [if_pos h, if_pos (by omega), update_of_ne (by omega)]
      · rw [if_neg h, if_neg (by omega)]

theorem KvaState.getElem_free (hi : i < st.free.length) : st.free[i] = st.extents i := by
  simp [KvaState.free]

/-- A place of the table splits it in two. -/
theorem KvaState.free_eq_append (hi : i < st.count) :
    st.free = st.free.take i ++ st.extents i :: st.free.drop (i + 1) := by
  have hi' : i < st.free.length := by simpa using hi
  rw [← KvaState.getElem_free hi', ← drop_eq_getElem_cons hi', take_append_drop]

/-- A write to one place of the table. -/
theorem KvaState.free_update {e : KvaExtent} (hi : i < st.count) :
    ({ st with extents := update st.extents i e } : KvaState).free =
      st.free.take i ++ e :: st.free.drop (i + 1) := by
  have hset : st.free.set i e = st.free.take i ++ e :: st.free.drop (i + 1) := by
    rw [set_eq_take_append_cons_drop, if_pos (by simpa using hi)]
  rw [← hset]
  refine ext_getElem (by simp) fun k h1 h2 => ?_
  rw [KvaState.getElem_free, getElem_set]
  dsimp only
  by_cases hk : i = k
  · rw [if_pos hk, hk, update_self]
  · rw [if_neg hk, KvaState.getElem_free, update_of_ne (Ne.symm hk)]

/-- The extents without the one at `i`. -/
theorem removeExtent_free (hi : i < st.count) :
    (removeExtent st i).free = st.free.take i ++ st.free.drop (i + 1) := by
  rw [← eraseIdx_eq_take_drop_succ]
  refine ext_getElem ?_ fun k h1 h2 => ?_
  · rw [KvaState.length_free, length_eraseIdx_of_lt (by simpa using hi), KvaState.length_free]
    rfl
  · have hk : k < st.count - 1 := by simpa [removeExtent] using h1
    rw [KvaState.getElem_free, getElem_eraseIdx]
    simp only [removeExtent, shiftDown_apply, KvaState.getElem_free]
    split_ifs <;> first | rfl | omega

/-- An allocation takes the start of an extent that has room, or all of it. -/
theorem kvaAlloc_ok {size need va : ℕ} {st' : KvaState} (h : kvaAlloc st size = .ok (va, st'))
    (hneed : (size + 2 * KVA_GUARD_SIZE) % 2^64 = need) :
    size ≠ 0 ∧ size % KVA_PAGE_SIZE = 0 ∧ size ≤ need ∧ st.liveCount + 1 < KVA_MAX_EXTENTS ∧
      st'.liveCount = st.liveCount + 1 ∧ st'.base = st.base ∧ st'.end = st.end ∧
      ∃ left e right, st.free = left ++ e :: right ∧ need ≤ e.end - e.start ∧
        va = e.start + KVA_GUARD_SIZE ∧ (e.start + need = e.end ∧ st'.free = left ++ right ∨
          e.start + need ≠ e.end ∧
            st'.free = left ++ { e with start := e.start + need } :: right) := by
  unfold kvaAlloc at h
  dsimp only at h
  rw [hneed] at h
  split_ifs at h with h1 h2 h3
  split at h
  · cases h
  rename_i idx hfind
  have hidx : idx < st.count := mem_range.1 (mem_of_find?_eq_some hfind)
  have hroom := find?_some hfind
  simp only [decide_eq_true_eq] at hroom
  obtain ⟨hne, hpage⟩ := not_or.1 h1
  obtain ⟨rfl, rfl⟩ := Prod.mk.inj (Except.ok.inj h)
  refine ⟨hne, not_not.1 hpage, by omega, by omega, rfl, ?_, ?_, _, _, _,
    st.free_eq_append hidx, hroom, rfl, ?_⟩
  · split_ifs <;> rfl
  · split_ifs <;> rfl
  · split_ifs with hwhole
    · exact .inl ⟨hwhole, removeExtent_free hidx⟩
    · exact .inr ⟨hwhole, st.free_update hidx⟩

/-- A new extent before the one at `idx`. -/
theorem KvaState.free_insert {e : KvaExtent} (hi : idx ≤ st.count) : ({ st with
        extents := update (shiftUp (st.count - idx) st.count st.extents) idx e
        count := st.count + 1 } : KvaState).free =
      st.free.take idx ++ e :: st.free.drop idx := by
  refine ext_getElem ?_ fun k h1 h2 => ?_
  · simp only [KvaState.length_free, length_append, length_take, length_cons,
      length_drop]
    omega
  · have hlen : k < st.count + 1 := by simpa using h1
    rw [KvaState.getElem_free, getElem_append]
    simp only [length_take, KvaState.length_free, Nat.min_eq_left hi, getElem_take,
      getElem_cons, getElem_drop, KvaState.getElem_free]
    rcases lt_trichotomy k idx with hk | rfl | hk
    · rw [dif_pos hk, update_of_ne hk.ne, shiftUp_apply (by omega), if_neg (by omega)]
    · rw [dif_neg (by omega), dif_pos (by omega), update_self]
    · rw [dif_neg (by omega), dif_neg (by omega), update_of_ne hk.ne',
        shiftUp_apply (by omega), if_pos (by omega)]
      congr 1
      omega

/-! ## Putting a range into the table -/

/-- The table after the range `[s, t)` has been put between the extents `left` and `right` and
joined with those of them that it touches. -/
inductive ExtentJoin (s t : ℕ) : List KvaExtent → List KvaExtent → List KvaExtent → Prop
  | both {left right : List KvaExtent} {e f : KvaExtent} (he : e.end = s) (hf : f.start = t) :
      ExtentJoin s t (left ++ [e]) (f :: right) (left ++ { e with «end» := f.end } :: right)
  | left {left right : List KvaExtent} {e : KvaExtent} (he : e.end = s)
      (hf : ∀ f ∈ right.head?, f.start ≠ t) :
      ExtentJoin s t (left ++ [e]) right (left ++ { e with «end» := t } :: right)
  | right {left right : List KvaExtent} {f : KvaExtent} (he : ∀ e ∈ left.getLast?, e.end ≠ s)
      (hf : f.start = t) :
      ExtentJoin s t left (f :: right) (left ++ { f with start := s } :: right)
  | between {left right : List KvaExtent} (he : ∀ e ∈ left.getLast?, e.end ≠ s)
      (hf : ∀ f ∈ right.head?, f.start ≠ t) :
      ExtentJoin s t left right (left ++ ⟨s, t⟩ :: right)

variable {s t : ℕ} {st' : KvaState}

/-- Every extent after a join is one from before, or the one that holds the range. -/
theorem ExtentJoin.mem {left right free : List KvaExtent} {x : KvaExtent}
    (h : ExtentJoin s t left right free) (hx : x ∈ free) : x ∈ left ++ right ∨
      (x.start = s ∨ ∃ e ∈ left ++ right, e.end = s ∧ x.start = e.start) ∧
        (x.end = t ∨ ∃ e ∈ left ++ right, e.start = t ∧ x.end = e.end) := by
  cases h with
  | @both _ _ e f he hf =>
    rcases mem_cons.1 (perm_middle.mem_iff.1 hx) with rfl | hx
    · exact .inr ⟨.inr ⟨e, by simp, he, rfl⟩, .inr ⟨f, by simp, hf, rfl⟩⟩
    · exact .inl (((sublist_append_left ..).append (sublist_cons_self ..)).mem hx)
  | @left _ _ e he =>
    rcases mem_cons.1 (perm_middle.mem_iff.1 hx) with rfl | hx
    · exact .inr ⟨.inr ⟨e, by simp, he, rfl⟩, .inl rfl⟩
    · exact .inl (((sublist_append_left ..).append_right _).mem hx)
  | @right _ _ f _ hf =>
    rcases mem_cons.1 (perm_middle.mem_iff.1 hx) with rfl | hx
    · exact .inr ⟨.inl rfl, .inr ⟨f, by simp, hf, rfl⟩⟩
    · exact .inl (((sublist_cons_self ..).append_left _).mem hx)
  | between =>
    rcases mem_cons.1 (perm_middle.mem_iff.1 hx) with rfl | hx
    · exact .inr ⟨.inl rfl, .inl rfl⟩
    · exact .inl hx

/-- The extents before a place that is not the first. -/
theorem KvaState.take_succ_free (hi : i < st.count) :
    st.free.take (i + 1) = st.free.take i ++ [st.extents i] := by
  rw [take_succ_eq_append_getElem (by simpa using hi), KvaState.getElem_free]

/-- The extents from a place that is not the end. -/
theorem KvaState.drop_free (hi : i < st.count) :
    st.free.drop i = st.extents i :: st.free.drop (i + 1) := by
  rw [drop_eq_getElem_cons (by simpa using hi), KvaState.getElem_free]

/-- A list without one of its members. -/
theorem take_drop_middle {left right : List KvaExtent} {e f : KvaExtent} (hk : left.length = k) :
    (left ++ e :: f :: right).take (k + 1) ++ (left ++ e :: f :: right).drop (k + 1 + 1) =
      left ++ e :: right := by
  have h1 : left ++ e :: f :: right = (left ++ [e]) ++ f :: right := by simp
  have h2 : left ++ e :: f :: right = (left ++ [e, f]) ++ right := by simp
  rw [show (left ++ e :: f :: right).take (k + 1) = left ++ [e] by
      rw [h1]; exact take_left' (by simp [hk]),
    show (left ++ e :: f :: right).drop (k + 1 + 1) = right by
      rw [h2]; exact drop_left' (by simp [hk])]
  simp

/-- The last extent before the place does not end at `s` when the source does not merge with it. -/
theorem not_touchesLeft (hidx : idx ≤ st.count) (h : ¬ (0 < idx ∧ (st.extents (idx - 1)).end = s)) :
    ∀ e ∈ (st.free.take idx).getLast?, e.end ≠ s := by
  cases idx with
  | zero => simp
  | succ k =>
    intro e he
    rw [KvaState.take_succ_free hidx, getLast?_concat, Option.mem_some_iff] at he
    subst he
    exact fun heq => h ⟨k.succ_pos, heq⟩

/-- The first extent after the place does not start at `t` when the source does not merge with
it. -/
theorem not_touchesRight (h : ¬ (idx < st.count ∧ (st.extents idx).start = t)) :
    ∀ f ∈ (st.free.drop idx).head?, f.start ≠ t := by
  intro f hf
  by_cases hlt : idx < st.count
  · rw [KvaState.drop_free hlt, head?_cons, Option.mem_some_iff] at hf
    subst hf
    exact fun heq => h ⟨hlt, heq⟩
  · rw [drop_eq_nil_of_le (by simpa using hlt)] at hf
    cases hf

/-- What `kvaInsert` does to the table when it succeeds. -/
theorem kvaInsert_join (hidx : idx ≤ st.count) (h : exec (kvaInsert idx s t) st = (.ok ⟨⟩, st')) :
    ExtentJoin s t (st.free.take idx) (st.free.drop idx) st'.free ∧ st'.base = st.base ∧
      st'.end = st.end ∧ st'.liveCount = st.liveCount := by
  unfold kvaInsert at h
  rw [exec_get_bind] at h
  by_cases hL : 0 < idx ∧ (st.extents (idx - 1)).end = s
  · obtain ⟨k, rfl⟩ : ∃ k, idx = k + 1 := ⟨idx - 1, by omega⟩
    have hk : k < st.count := hidx
    rw [Nat.add_sub_cancel] at hL h
    rw [KvaState.take_succ_free hk]
    by_cases hR : k + 1 < st.count ∧ (st.extents (k + 1)).start = t
    · rw [if_pos ⟨hL, hR⟩] at h
      cases h
      refine ⟨?_, rfl, rfl, rfl⟩
      have hlen : (st.free.take k).length = k := by simp [hk.le]
      rw [removeExtent_free (by exact hR.1), KvaState.free_update hk, KvaState.drop_free hR.1,
        take_drop_middle hlen]
      exact .both hL.2 hR.2
    · rw [if_neg (fun h => hR h.2), if_pos hL] at h
      cases h
      refine ⟨?_, rfl, rfl, rfl⟩
      rw [KvaState.free_update hk]
      exact .left hL.2 (not_touchesRight hR)
  · by_cases hR : idx < st.count ∧ (st.extents idx).start = t
    · rw [if_neg (fun h => hL h.1), if_neg hL, if_pos hR] at h
      cases h
      refine ⟨?_, rfl, rfl, rfl⟩
      rw [KvaState.free_update hR.1, KvaState.drop_free hR.1]
      exact .right (not_touchesLeft hidx hL) hR.2
    · rw [if_neg (fun h => hL h.1), if_neg hL, if_neg hR] at h
      split_ifs at h
      · cases h
      cases h
      refine ⟨?_, rfl, rfl, rfl⟩
      rw [KvaState.free_insert hidx]
      exact .between (not_touchesLeft hidx hL) (not_touchesRight hR)

/-- `kvaInsert` fails only with a full table, and only without a neighbour to merge with. -/
theorem exists_kvaInsert : (∃ st', exec (kvaInsert idx s t) st = (.ok ⟨⟩, st')) ↔
    st.count < KVA_MAX_EXTENTS ∨ (0 < idx ∧ (st.extents (idx - 1)).end = s) ∨
      (idx < st.count ∧ (st.extents idx).start = t) := by
  unfold kvaInsert
  rw [exec_get_bind]
  dsimp only
  split_ifs with h1 h2 h3 h4
  · exact ⟨fun _ => .inr (.inl h1.1), fun _ => ⟨_, rfl⟩⟩
  · exact ⟨fun _ => .inr (.inl h2), fun _ => ⟨_, rfl⟩⟩
  · exact ⟨fun _ => .inr (.inr h3), fun _ => ⟨_, rfl⟩⟩
  · exact ⟨fun ⟨_, h⟩ => (nomatch h), fun h => by omega⟩
  · exact ⟨fun _ => .inl (Nat.lt_of_not_le h4), fun _ => ⟨_, rfl⟩⟩

/-- A call that fails leaves the state as it was. -/
theorem kvaFree_error {va size : ℕ} {e : Status} (h : exec (kvaFree va size) st = (.error e, st')) :
    st' = st := by
  unfold kvaFree at h
  rw [exec_get_bind] at h
  dsimp only at h
  split_ifs at h
  any_goals
    cases h
    rfl
  -- The only error that is left is that of the insertion, which comes before its writes.
  rw [exec_bind, kvaInsert, exec_get_bind] at h
  dsimp only at h
  split_ifs at h <;> cases h
  rfl

end Bongos.Mm
