import Bongos.IntervalTiling
import Bongos.Mm.Kva

/-!
# Frees on a table in order

What `kvaFree` does to a table that is in order (`KvaTable`), whatever its arguments. The place that
`kvaSeek` finds splits the table in two (`kvaSeek_split`), and the checks against the neighbours of
the place are checks against all extents (`kvaSeek_apart_iff`). A range that passes them is put into
the table (`KvaTable.of_kvaFree`), and it is refused only for want of a place
(`KvaTable.exists_kvaFree`).
-/

namespace Bongos.Mm

open FallibleState List

/-- The part of the area that a free extent covers. -/
def KvaExtent.piece (e : KvaExtent) : Piece := (e.start, e.end)

/-- What every call keeps, whatever its arguments. -/
structure KvaTable (st : KvaState) : Prop where
  separated : Separated (st.free.map KvaExtent.piece)
  nonempty : ∀ e ∈ st.free, e.start < e.end
  inside : ∀ e ∈ st.free, st.base ≤ e.start ∧ e.end ≤ st.end
  end_lt : st.end < 2^64

variable {st st' : KvaState} {va size s t idx x : ℕ} {left right free : List KvaExtent}
  {e : KvaExtent}

/-! ## Extents with gaps between them -/

/-- The gaps around one extent of a table. -/
theorem separated_middle : Separated ((left ++ e :: right).map KvaExtent.piece) ↔
    Separated ((left ++ right).map KvaExtent.piece) ∧ (∀ l ∈ left, l.end < e.start) ∧
      ∀ q ∈ right, e.end < q.start := by
  simp only [Separated, map_append, map_cons, pairwise_append, pairwise_cons,
    mem_map, mem_cons, KvaExtent.piece]
  constructor
  · rintro ⟨h1, ⟨h2, h3⟩, h4⟩
    refine ⟨⟨h1, h3, fun p hp q hq => h4 p hp q (.inr hq)⟩, fun l hl => ?_, fun q hq => ?_⟩
    · exact h4 _ ⟨l, hl, rfl⟩ _ (.inl rfl)
    · exact h2 _ ⟨q, hq, rfl⟩
  · rintro ⟨⟨h1, h2, h3⟩, h4, h5⟩
    refine ⟨h1, ⟨?_, h2⟩, ?_⟩
    · rintro _ ⟨q, hq, rfl⟩
      exact h5 q hq
    · rintro _ ⟨l, hl, rfl⟩ q (rfl | hq)
      · exact h4 l hl
      · exact h3 _ ⟨l, hl, rfl⟩ q hq

/-- The extents before a place that none of them reaches end well before it: the last by assumption,
and those before it by the gap after each. -/
theorem lt_of_separated (h : Separated (left.map KvaExtent.piece))
    (hne : ∀ e ∈ left, e.start < e.end) (hle : ∀ l ∈ left, l.end ≤ s)
    (hlast : ∀ e ∈ left.getLast?, e.end ≠ s) : ∀ l ∈ left, l.end < s := by
  obtain rfl | ⟨init, e, rfl⟩ := left.eq_nil_or_concat'
  · simp
  have he : e.end ≤ s := hle e (by simp)
  have he' : e.end ≠ s := hlast e (by simp)
  intro l hl
  rcases mem_append.1 hl with hl | hl
  · have hgap := (separated_middle.1 h).2.1 l hl
    have := hne e (by simp)
    omega
  · cases mem_singleton.1 hl
    omega

/-- The extents after a place that none of them reaches start well after it. -/
theorem gt_of_separated (h : Separated (right.map KvaExtent.piece))
    (hne : ∀ e ∈ right, e.start < e.end) (hge : ∀ q ∈ right, t ≤ q.start)
    (hfirst : ∀ f ∈ right.head?, f.start ≠ t) : ∀ q ∈ right, t < q.start := by
  cases right with
  | nil => simp
  | cons f right =>
    have hf : t ≤ f.start := hge f mem_cons_self
    have hf' : f.start ≠ t := hfirst f rfl
    have hsep : Separated (([] ++ f :: right).map KvaExtent.piece) := h
    intro q hq
    rcases mem_cons.1 hq with rfl | hq
    · omega
    · have hgap := (separated_middle.1 hsep).2.2 q hq
      have := hne f mem_cons_self
      omega

/-! ## Joins -/

/-- A join of a range that overlaps none of the extents keeps them apart. -/
theorem ExtentJoin.separated (h : ExtentJoin s t left right free)
    (hsep : Separated ((left ++ right).map KvaExtent.piece))
    (hne : ∀ e ∈ left ++ right, e.start < e.end)
    (hl : ∀ l ∈ left, l.end ≤ s) (hq : ∀ q ∈ right, t ≤ q.start) :
    Separated (free.map KvaExtent.piece) := by
  obtain ⟨hneL, hneR⟩ := forall_mem_append.1 hne
  have hparts := hsep
  rw [map_append] at hparts
  obtain ⟨hsepL, hsepR, -⟩ := pairwise_append.1 hparts
  cases h with
  | both he hf =>
    rw [append_assoc] at hsep
    obtain ⟨hsep, hl', -⟩ := separated_middle.1 hsep
    obtain ⟨hsep, -, hq'⟩ := separated_middle.1 hsep
    exact separated_middle.2 ⟨hsep, hl', hq'⟩
  | left he hf =>
    rw [append_assoc] at hsep
    obtain ⟨hsep, hl', -⟩ := separated_middle.1 hsep
    exact separated_middle.2 ⟨hsep, hl', gt_of_separated hsepR hneR hq hf⟩
  | right he hf =>
    obtain ⟨hsep, -, hq'⟩ := separated_middle.1 hsep
    exact separated_middle.2 ⟨hsep, lt_of_separated hsepL hneL hl he, hq'⟩
  | between he hf =>
    exact separated_middle.2
      ⟨hsep, lt_of_separated hsepL hneL hl he, gt_of_separated hsepR hneR hq hf⟩

/-! ## The place of a range -/

/-- `kvaSeek` splits the table: the extents before the place start below `start`, and the one at the
place does not. -/
theorem kvaSeek_spec (extents : ℕ → KvaExtent) (start n : ℕ) : ∀ idx : ℕ,
    idx ≤ kvaSeek extents start n idx ∧ kvaSeek extents start n idx ≤ idx + n ∧
      (∀ k, idx ≤ k → k < kvaSeek extents start n idx → (extents k).start < start) ∧
      (kvaSeek extents start n idx < idx + n →
        start ≤ (extents (kvaSeek extents start n idx)).start) := by
  induction n with
  | zero => intro idx; simp [kvaSeek]; omega
  | succ n ih =>
    intro idx
    rw [kvaSeek]
    split_ifs with h
    · obtain ⟨h1, h2, h3, h4⟩ := ih (idx + 1)
      refine ⟨by omega, by omega, fun k hk hk' => ?_, fun hlt => h4 (by omega)⟩
      rcases hk.eq_or_lt with rfl | hk
      · exact h
      · exact h3 k hk hk'
    · exact ⟨le_rfl, by omega, fun k hk hk' => by omega, fun _ => by omega⟩

/-- A member of the table is at one of its places. -/
theorem KvaState.mem_free : e ∈ st.free ↔ ∃ k < st.count, st.extents k = e := by
  simp only [KvaState.free, mem_map, mem_range]

/-- The extents of a table in order. -/
theorem end_lt_start (h : Separated (st.free.map KvaExtent.piece)) {j k : ℕ} (hjk : j < k)
    (hk : k < st.count) : (st.extents j).end < (st.extents k).start := by
  have hpairs := pairwise_iff_getElem.1 (pairwise_map.1 h) j k
    (by simpa using hjk.trans hk) (by simpa using hk) hjk
  simpa only [KvaState.getElem_free, KvaExtent.piece] using hpairs

section

variable (hsep : Separated (st.free.map KvaExtent.piece)) (hne : ∀ e ∈ st.free, e.start < e.end)

include hsep hne

/-- The place that `kvaSeek` finds splits the extents when none of them overlaps the range. -/
theorem kvaSeek_split (hapart : ∀ e ∈ st.free, e.end ≤ s ∨ t ≤ e.start) (hst : s < t) :
    (∀ l ∈ st.free.take (kvaSeek st.extents s st.count 0), l.end ≤ s) ∧
      ∀ q ∈ st.free.drop (kvaSeek st.extents s st.count 0), t ≤ q.start := by
  obtain ⟨-, hle, hbefore, hafter⟩ := kvaSeek_spec st.extents s st.count 0
  set idx := kvaSeek st.extents s st.count 0
  refine ⟨fun l hl => ?_, fun q hq => ?_⟩
  · obtain ⟨k, hk, rfl⟩ := mem_take_iff_getElem.1 hl
    rw [KvaState.getElem_free]
    have hstart := hbefore k (Nat.zero_le k) (by omega)
    have := hapart _ (KvaState.mem_free.2 ⟨k, by omega, rfl⟩)
    omega
  · obtain ⟨k, hk, rfl⟩ := mem_drop_iff_getElem.1 hq
    rw [KvaState.length_free] at hk
    rw [KvaState.getElem_free]
    have hmem : st.extents (idx + k) ∈ st.free := KvaState.mem_free.2 ⟨idx + k, by omega, rfl⟩
    have := hne _ hmem
    have := hapart _ hmem
    -- The extent is the one at the place, or behind it.
    rcases Nat.eq_zero_or_pos k with rfl | hpos
    · rw [Nat.add_zero] at *
      omega
    · have := end_lt_start hsep (show idx < idx + k by omega) (by omega)
      have := hne _ (KvaState.mem_free.2 ⟨idx, by omega, rfl⟩)
      omega

/-- The checks of `kvaFree` against the neighbours of the place are checks against all extents. -/
theorem kvaSeek_apart_iff (hst : s < t) : (¬ (0 < kvaSeek st.extents s st.count 0 ∧
        (st.extents (kvaSeek st.extents s st.count 0 - 1)).end > s) ∧
      ¬ (kvaSeek st.extents s st.count 0 < st.count ∧
        (st.extents (kvaSeek st.extents s st.count 0)).start < t)) ↔
      ∀ e ∈ st.free, e.end ≤ s ∨ t ≤ e.start := by
  obtain ⟨-, hle, hbefore, hafter⟩ := kvaSeek_spec st.extents s st.count 0
  set idx := kvaSeek st.extents s st.count 0
  rw [Nat.zero_add] at hle hafter
  constructor
  · rintro ⟨hleft, hright⟩ e he
    obtain ⟨k, hk, rfl⟩ := KvaState.mem_free.1 he
    rcases Nat.lt_or_ge k idx with hlt | hge
    · rcases Nat.lt_or_ge k (idx - 1) with hlt' | hge'
      · have := end_lt_start hsep hlt' (by omega)
        have := hbefore (idx - 1) (Nat.zero_le _) (by omega)
        omega
      · obtain rfl : k = idx - 1 := by omega
        omega
    · rcases hge.eq_or_lt with rfl | hlt'
      · omega
      · have := end_lt_start hsep hlt' hk
        have := hne _ (KvaState.mem_free.2 ⟨idx, by omega, rfl⟩)
        omega
  · intro hapart
    refine ⟨?_, ?_⟩
    · rintro ⟨hpos, hover⟩
      have := hbefore (idx - 1) (Nat.zero_le _) (by omega)
      have := hapart _ (KvaState.mem_free.2 ⟨idx - 1, by omega, rfl⟩)
      omega
    · rintro ⟨hlt, hover⟩
      have hmem := KvaState.mem_free.2 ⟨idx, hlt, rfl⟩
      have := hne _ hmem
      have := hapart _ hmem
      omega

end

/-! ## What a free does -/

/-- There is an extent that the range `[s, t)` touches, or a place for a new one. -/
def HasRoom (st : KvaState) (s t : ℕ) : Prop :=
  st.count < KVA_MAX_EXTENTS ∨ ∃ e ∈ st.free, e.end = s ∨ e.start = t

/-- The call has put the range `[s, t)`, which was inside the area and not free, into the table. -/
structure FreedRange (st st' : KvaState) (s t : ℕ) : Prop where
  lt : s < t
  inside : st.base ≤ s ∧ t ≤ st.end
  apart : ∀ e ∈ st.free, e.end ≤ s ∨ t ≤ e.start
  room : HasRoom st s t
  join : ∃ left right, st.free = left ++ right ∧ (∀ l ∈ left, l.end ≤ s) ∧
    (∀ q ∈ right, t ≤ q.start) ∧ ExtentJoin s t left right st'.free
  base_eq : st'.base = st.base
  end_eq : st'.end = st.end
  liveCount_eq : st'.liveCount = if st.liveCount = 0 then 2^32 - 1 else st.liveCount - 1

/-- A free that succeeds has passed its checks and freed the range they were made for. -/
theorem KvaTable.of_kvaFree (h : KvaTable st) (hok : exec (kvaFree va size) st = (.ok ⟨⟩, st')) :
    0 < size ∧ size % 4096 = 0 ∧ 4096 ≤ va ∧ va ≤ (va + size + 4096) % 2^64 ∧
      FreedRange st st' (va - 4096) ((va + size + 4096) % 2^64) := by
  unfold kvaFree KVA_GUARD_SIZE KVA_PAGE_SIZE at hok
  rw [exec_get_bind] at hok
  dsimp only at hok
  split_ifs at hok with hsize hwrap hbounds hleft hright
  iterate 5 · cases hok
  obtain ⟨⟨⟩, st1, hinsert, hok⟩ := exec_bind_eq_ok hok
  cases hok
  set s := va - 4096
  set t := (va + size + 4096) % 2^64
  have hst : s < t := by omega
  have hapart := (kvaSeek_apart_iff h.separated h.nonempty hst).1 ⟨hleft, hright⟩
  obtain ⟨hl, hq⟩ := kvaSeek_split h.separated h.nonempty hapart hst
  obtain ⟨-, hle, -⟩ := kvaSeek_spec st.extents s st.count 0
  obtain ⟨hjoin, hbase, hend, hlive⟩ := kvaInsert_join (by omega) hinsert
  have hroom : HasRoom st s t := by
    rcases exists_kvaInsert.1 ⟨st1, hinsert⟩ with hroom | ⟨hpos, htouch⟩ | ⟨hlt, htouch⟩
    · exact .inl hroom
    · exact .inr ⟨_, KvaState.mem_free.2 ⟨_, by omega, rfl⟩, .inl htouch⟩
    · exact .inr ⟨_, KvaState.mem_free.2 ⟨_, hlt, rfl⟩, .inr htouch⟩
  exact ⟨by omega, by omega, by omega, by omega, hst, by omega, hapart, hroom,
    ⟨_, _, (take_append_drop _ _).symm, hl, hq, hjoin⟩, hbase, hend, by dsimp only; rw [hlive]⟩

/-- An extent that touches the range is a neighbour of its place. -/
theorem HasRoom.neighbour (h : KvaTable st) (hst : s < t)
    (hapart : ∀ e ∈ st.free, e.end ≤ s ∨ t ≤ e.start) (hroom : HasRoom st s t) :
    st.count < KVA_MAX_EXTENTS ∨
      (0 < kvaSeek st.extents s st.count 0 ∧
        (st.extents (kvaSeek st.extents s st.count 0 - 1)).end = s) ∨
      (kvaSeek st.extents s st.count 0 < st.count ∧
        (st.extents (kvaSeek st.extents s st.count 0)).start = t) := by
  obtain ⟨-, hle, hbefore, hafter⟩ := kvaSeek_spec st.extents s st.count 0
  set idx := kvaSeek st.extents s st.count 0
  rcases hroom with hroom | ⟨e, he, htouch⟩
  · exact .inl hroom
  right
  have hne := h.nonempty e he
  obtain ⟨k, hk, rfl⟩ := KvaState.mem_free.1 he
  rcases htouch with htouch | htouch
  · -- It starts before `s`, so it is before the place, and only the last one reaches `s`.
    left
    have hlt : k < idx := by
      by_contra hge
      have hmem : st.extents idx ∈ st.free := KvaState.mem_free.2 ⟨idx, by omega, rfl⟩
      rcases (Nat.not_lt.1 hge).eq_or_lt with rfl | hgt
      · omega
      · have := end_lt_start h.separated hgt hk
        have := h.nonempty _ hmem
        omega
    rcases Nat.lt_or_ge k (idx - 1) with hlt' | hge
    · have := end_lt_start h.separated hlt' (by omega)
      have := hbefore (idx - 1) (Nat.zero_le _) (by omega)
      omega
    · obtain rfl : k = idx - 1 := by omega
      exact ⟨by omega, htouch⟩
  · right
    have hge : idx ≤ k := by
      by_contra hlt
      have := hbefore k (Nat.zero_le k) (by omega)
      omega
    rcases hge.eq_or_lt with rfl | hgt
    · exact ⟨hk, htouch⟩
    · have := end_lt_start h.separated hgt hk
      have hmem : st.extents idx ∈ st.free := KvaState.mem_free.2 ⟨idx, by omega, rfl⟩
      have := h.nonempty _ hmem
      have := hapart _ hmem
      omega

/-- A free whose range passes the checks succeeds. -/
theorem KvaTable.exists_kvaFree (h : KvaTable st) (hpos : 0 < size) (hpage : size % 4096 = 0)
    (hva : 4096 ≤ va) (hwrap : va ≤ (va + size + 4096) % 2^64)
    (hin : st.base ≤ va - 4096 ∧ (va + size + 4096) % 2^64 ≤ st.end)
    (hapart : ∀ e ∈ st.free, e.end ≤ va - 4096 ∨ (va + size + 4096) % 2^64 ≤ e.start)
    (hroom : HasRoom st (va - 4096) ((va + size + 4096) % 2^64)) :
    ∃ st', exec (kvaFree va size) st = (.ok ⟨⟩, st') := by
  have hst : va - 4096 < (va + size + 4096) % 2^64 := by omega
  obtain ⟨hleft, hright⟩ := (kvaSeek_apart_iff h.separated h.nonempty hst).2 hapart
  obtain ⟨st1, hinsert⟩ := exists_kvaInsert.2 (hroom.neighbour h hst hapart)
  unfold kvaFree KVA_GUARD_SIZE KVA_PAGE_SIZE
  rw [exec_get_bind, if_neg (by omega), if_neg (by omega), if_neg (by omega), if_neg hleft,
    if_neg hright, exec_bind_of_ok hinsert]
  exact ⟨_, rfl⟩

end Bongos.Mm
