import Bongos.Mm.PmmMap

/-!
# The early bump allocator

`early.c`: before the buddy core exists, `pmmInit` takes pages from the top of the usable ranges,
the highest range first. Every frame of a usable range is at any time either handed out or below the
range's cursor, and sealing leaves exactly the latter in the map.
-/

namespace Bongos.Mm

open List Function

/-- The panics of `early.c` and of the boot part of `pmm.c`, with the numbers that they print. -/
inductive PmmPanic where
  /-- `pmmEarlyAllocPages() called after pmmEarlySeal()` -/
  | earlySealed
  /-- `pmmAddFreeRange failed during init` -/
  | initAddFailed (st : Status)
  /-- `called twice` -/
  | reclaimTwice
  /-- `called before the kernel's own page tables are active` -/
  | tablesInactive
  /-- `reclaim: [..) is not entirely PAGE_STATE_RESERVED` -/
  | reclaimNotReserved (base «end» : ℕ)
  /-- `reclaim: pmmAddFreeRange(..) failed` -/
  | reclaimAddFailed (base length : ℕ) (st : Status)
  /-- `reclaim: reclaimed .. pages, more than the .. ever recorded` -/
  | reclaimTooMany (reclaimed total : ℕ)
  /-- `meminfo self-check failed` -/
  | meminfo (usable reclaimed managed early low unmapped : ℕ)
  deriving DecidableEq

/-- The globals of `early.c`. `earlyCursor` holds the end of what is still free of each usable
range. -/
structure PmmEarly where
  earlyMap : PmmMap
  earlyCursor : ℕ → ℕ
  earlySealed : Bool
  earlyUsedPages : ℕ

/-- `usable[i]` of a map. -/
def PmmMap.usableAt (m : PmmMap) (i : ℕ) : PmmUsableRange := m.usable.getD i ⟨0, 0⟩

def pmmEarlyInit (map : PmmMap) : PmmEarly where
  earlyMap := map
  earlyCursor i := (map.usableAt i).endPfn
  earlySealed := false
  earlyUsedPages := 0

/-- The loop of `pmmEarlyAllocPages`: the highest range below `n` with `count` pages left. -/
def earlyFind (e : PmmEarly) (count : ℕ) : ℕ → Option ℕ
  | 0 => none
  | i + 1 =>
    if e.earlyCursor i - (e.earlyMap.usableAt i).startPfn ≥ count then some i
    else earlyFind e count i

/-- `pmmEarlyAllocPages`: the address of `count` pages from the top of a range, or a status. -/
def pmmEarlyAllocPages (e : PmmEarly) (count : ℕ) :
    Except PmmPanic (Except Status (ℕ × PmmEarly)) :=
  if e.earlySealed then .error .earlySealed
  else match earlyFind e count e.earlyMap.usable.length with
    | none => .ok (.error .errNoMemory)
    | some i =>
      .ok (.ok ((e.earlyCursor i - count) <<< 12, { e with
        earlyCursor := update e.earlyCursor i (e.earlyCursor i - count)
        earlyUsedPages := e.earlyUsedPages + count }))

/-- `pmmEarlySeal`: shrinks each usable range to what is still free. -/
def pmmEarlySeal (e : PmmEarly) : PmmEarly :=
  if e.earlySealed then e
  else { e with
    earlySealed := true
    earlyMap := { e.earlyMap with
      usable := e.earlyMap.usable.mapIdx fun i u => { u with endPfn := e.earlyCursor i } } }

/-! ## What is handed out -/

/-- The frames of a usable range. -/
def PmmUsableRange.frames (u : PmmUsableRange) : List ℕ := Ico u.startPfn u.endPfn

/-- The allocator with the frames it has handed out. -/
structure EarlyWorld where
  early : PmmEarly
  handed : List ℕ

/-- A call that succeeds. -/
inductive EarlyStep : EarlyWorld → EarlyWorld → Prop
  | alloc {w : EarlyWorld} {count phys : ℕ} {e : PmmEarly}
      (h : pmmEarlyAllocPages w.early count = .ok (.ok (phys, e))) :
      EarlyStep w ⟨e, w.handed ++ List.range' (phys >>> 12) count⟩

/-- A list as the list of its entries by index. -/
theorem flatMap_eq_range {α β : Type*} (l : List α) (d : α) (f : α → List β) :
    l.flatMap f = (List.range l.length).flatMap fun i => f (l.getD i d) := by
  rw [flatMap_def, flatMap_def]
  congr 1
  refine ext_getElem (by simp) fun i h1 h2 => ?_
  have hi : i < l.length := by simpa using h1
  simp [hi]

/-- Taking `b` off the end of one piece takes it off the whole. -/
theorem flatMap_range_update {α : Type*} {g : ℕ → List α} {i n : ℕ} (hi : i < n) {a b : List α}
    (h : g i = a ++ b) :
    ((List.range n).flatMap (update g i a) ++ b).Perm ((List.range n).flatMap g) := by
  induction n with
  | zero => exact absurd hi (Nat.not_lt_zero i)
  | succ n ih =>
    simp only [range_succ, flatMap_append, flatMap_cons, flatMap_nil, append_nil]
    rcases (Nat.lt_succ_iff_lt_or_eq.1 hi) with hlt | rfl
    · rw [update_of_ne hlt.ne']
      have := (ih hlt).append_right (g n)
      refine List.Perm.trans ?_ this
      rw [append_assoc, append_assoc]
      exact List.Perm.append_left _ perm_append_comm
    · rw [update_self, h, ← append_assoc]
      refine List.Perm.append_right _ (List.Perm.append_right _ (List.Perm.of_eq ?_))
      refine flatMap_congr fun j hj => ?_
      rw [update_of_ne (mem_range.1 hj).ne]

/-- What the cursors leave of the usable ranges. -/
def PmmEarly.left (e : PmmEarly) : List ℕ :=
  (List.range e.earlyMap.usable.length).flatMap fun i =>
    Ico (e.earlyMap.usableAt i).startPfn (e.earlyCursor i)

/-- The frames of the usable ranges are those handed out and those left. -/
structure EarlyInv (map : PmmMap) (w : EarlyWorld) : Prop where
  map_eq : w.early.earlyMap = map
  not_sealed : w.early.earlySealed = false
  start_le : ∀ i < map.usable.length, (map.usableAt i).startPfn ≤ w.early.earlyCursor i
  perm : (w.early.left ++ w.handed).Perm (map.usable.flatMap PmmUsableRange.frames)
  used_eq : w.early.earlyUsedPages = w.handed.length

theorem earlyFind_eq_some {e : PmmEarly} {count n i : ℕ} (h : earlyFind e count n = some i) :
    i < n ∧ count ≤ e.earlyCursor i - (e.earlyMap.usableAt i).startPfn := by
  induction n with
  | zero => cases h
  | succ n ih =>
    simp only [earlyFind] at h
    split_ifs at h with hroom
    · cases h; exact ⟨Nat.lt_succ_self _, hroom⟩
    · exact ⟨(ih h).1.trans (Nat.lt_succ_self n), (ih h).2⟩

variable {map : PmmMap}

theorem EarlyInv.init (h : ∀ u ∈ map.usable, u.startPfn ≤ u.endPfn) :
    EarlyInv map ⟨pmmEarlyInit map, []⟩ := by
  refine ⟨rfl, rfl, fun i hi => ?_, ?_, rfl⟩
  · have hu : map.usableAt i = map.usable[i] := getD_eq_getElem _ _ hi
    simp only [pmmEarlyInit, hu]
    exact h _ (getElem_mem hi)
  · rw [append_nil, flatMap_eq_range _ ⟨0, 0⟩]
    exact .refl _

theorem EarlyInv.step {w w' : EarlyWorld} (i : EarlyInv map w)
    (h : EarlyStep w w') : EarlyInv map w' := by
  obtain ⟨h⟩ := h
  rename_i count phys e
  unfold pmmEarlyAllocPages at h
  rw [if_neg (by simp [i.not_sealed])] at h
  split at h
  · cases h
  next j hj =>
    cases h
    obtain ⟨hlt, hroom⟩ := earlyFind_eq_some hj
    rw [i.map_eq] at hlt hroom
    have hstart := i.start_le j hlt
    refine ⟨i.map_eq, i.not_sealed, fun k hk => ?_, ?_, ?_⟩
    · by_cases hkj : k = j
      · subst hkj; simp only [update_self]; omega
      · simpa only [update_of_ne hkj] using i.start_le k hk
    · -- The frames handed out are the top of the range.
      set c := w.early.earlyCursor j - count
      have hcut : Ico (map.usableAt j).startPfn (w.early.earlyCursor j) =
          Ico (map.usableAt j).startPfn c ++ List.range' c count := by
        rw [← Ico.append_consecutive (m := c) (by omega) (by omega)]
        have : w.early.earlyCursor j - c = count := by omega
        rw [Ico.eq_1 c, this]
      have hmove := flatMap_range_update
        (g := fun k => Ico (map.usableAt k).startPfn (w.early.earlyCursor k)) hlt hcut
      have hleft : (update (fun k => Ico (map.usableAt k).startPfn (w.early.earlyCursor k)) j
            (Ico (map.usableAt j).startPfn c)) = fun k =>
          Ico (map.usableAt k).startPfn (update w.early.earlyCursor j c k) := by
        funext k
        by_cases hkj : k = j
        · subst hkj; simp
        · simp [hkj]
      rw [hleft] at hmove
      refine List.Perm.trans ?_ i.perm
      simp only [PmmEarly.left, i.map_eq, Nat.shiftLeft_shiftRight]
      refine (List.Perm.append_left _ perm_append_comm).trans ?_
      rw [← append_assoc]
      exact hmove.append_right _
    · simp [i.used_eq]

/-- Sealing leaves in the map what was not handed out. -/
theorem EarlyInv.seal {w : EarlyWorld} (i : EarlyInv map w) :
    ((pmmEarlySeal w.early).earlyMap.usable.flatMap PmmUsableRange.frames ++ w.handed).Perm
      (map.usable.flatMap PmmUsableRange.frames) := by
  refine List.Perm.trans (List.Perm.append_right _ (List.Perm.of_eq ?_)) i.perm
  rw [flatMap_eq_range _ ⟨0, 0⟩, pmmEarlySeal, if_neg (by simp [i.not_sealed]), PmmEarly.left]
  simp only [length_mapIdx]
  refine flatMap_congr fun j hj => ?_
  have hj : j < w.early.earlyMap.usable.length := mem_range.1 hj
  simp [PmmUsableRange.frames, PmmMap.usableAt, hj]

end Bongos.Mm
