import Bongos.GraphSearch
import Bongos.Sync.Lockdep
import Mathlib.Data.List.Perm.Subperm

/-!
# The search of the lock validator

`bfsFind` decides reachability in the graph of `adj`. The scratch it finds in the graph does not
matter: `bfsSeen` is cleared first, and the queue and the parents are written before they are read.
-/

namespace Bongos.Sync

open GraphSearch Relation List

/-- `a` was held while `b` was acquired, as the matrix records it. -/
def Ordered (g : LockdepGraph) (a b : ℕ) : Prop := 0 < a ∧ 0 < b ∧ adjTest g a b = true

/-- The matrix relates ids of classes only. -/
def AdjValid (g : LockdepGraph) : Prop :=
  ∀ a b, Ordered g a b → a ≤ LOCKDEP_MAX_CLASSES ∧ b ≤ LOCKDEP_MAX_CLASSES

/-- `bfsSeen` marks the classes that were queued. -/
def SeenOk (s : LockdepBfs) : Prop :=
  ∀ i < LOCKDEP_MAX_CLASSES, bitTest s.bfsSeen i = true ↔ i + 1 ∈ s.bfsQueue

/-! ## One class -/

/-- Queueing the classes of some bits of a word. -/
theorem foldl_bfsPush (cur w : ℕ) {bs : List ℕ} (hbs : ∀ b ∈ bs, b < 64) (s : LockdepBfs) :
    (bs.foldl (bfsPush cur w) s).bfsQueue = s.bfsQueue ++ bs.map (fun b => w * 64 + b + 1) ∧
      ∀ i, bitTest (bs.foldl (bfsPush cur w) s).bfsSeen i = true ↔
        bitTest s.bfsSeen i = true ∨ ∃ b ∈ bs, i = w * 64 + b := by
  induction bs generalizing s with
  | nil => simp
  | cons b bs ih =>
    obtain ⟨hb, hbs⟩ := forall_mem_cons.1 hbs
    obtain ⟨hqueue, hseen⟩ := ih hbs (bfsPush cur w s b)
    refine ⟨?_, fun i => ?_⟩
    · rw [foldl_cons, hqueue]
      simp [bfsPush]
    · rw [foldl_cons, hseen]
      simp only [bfsPush, bitTest_setBit _ hb, Bool.or_eq_true, beq_iff_eq, exists_mem_cons_iff]
      tauto

/-- The bits of a word that are new. -/
theorem mem_setBits_new {row seen : ℕ → BitVec 64} {w b : ℕ} :
    b ∈ setBits (row w &&& ~~~ seen w).toNat ↔
      b < 64 ∧ bitTest row (w * 64 + b) = true ∧ bitTest seen (w * 64 + b) = false := by
  rw [mem_setBits, ← BitVec.getLsbD]
  by_cases hb : b < 64
  · have hdiv : (w * 64 + b) / 64 = w := by omega
    have hmod : (w * 64 + b) % 64 = b := by omega
    simp [bitTest, hdiv, hmod, hb]
  · simp [hb, BitVec.getLsbD_of_ge _ _ (not_lt.1 hb)]

/-- What expanding a class queues: the successors in the first `n` words that were not seen. -/
theorem foldl_bfsWord (row : ℕ → BitVec 64) (cur : ℕ) (s : LockdepBfs) (n : ℕ) :
    ∃ new, ((List.range n).foldl (bfsWord row cur) s).bfsQueue = s.bfsQueue ++ new ∧ new.Nodup ∧
      (∀ y, y ∈ new ↔ 0 < y ∧ y ≤ n * 64 ∧ bitTest row (y - 1) = true ∧
        bitTest s.bfsSeen (y - 1) = false) ∧
      ∀ i, bitTest ((List.range n).foldl (bfsWord row cur) s).bfsSeen i = true ↔
        bitTest s.bfsSeen i = true ∨ i + 1 ∈ new := by
  induction n with
  | zero =>
    refine ⟨[], by simp, nodup_nil, fun y => ?_, by simp⟩
    simp
    omega
  | succ n ih =>
    obtain ⟨new, hqueue, hnodup, hnew, hseen⟩ := ih
    rw [range_succ, foldl_append, foldl_cons, foldl_nil]
    generalize (List.range n).foldl (bfsWord row cur) s = t at hqueue hseen
    -- The rounds before have not touched this word of `bfsSeen`.
    have hword : ∀ b, b ∈ setBits (row n &&& ~~~ t.bfsSeen n).toNat ↔
        b < 64 ∧ bitTest row (n * 64 + b) = true ∧ bitTest s.bfsSeen (n * 64 + b) = false := by
      intro b
      have hnot : n * 64 + b + 1 ∉ new := fun h => by
        have := ((hnew _).1 h).2.1
        omega
      have heq : bitTest t.bfsSeen (n * 64 + b) = bitTest s.bfsSeen (n * 64 + b) := by
        rw [Bool.eq_iff_iff, hseen]
        exact or_iff_left hnot
      rw [mem_setBits_new, heq]
    have hlt : ∀ b ∈ setBits (row n &&& ~~~ t.bfsSeen n).toNat, b < 64 := fun b hb =>
      ((hword b).1 hb).1
    obtain ⟨hqueue', hseen'⟩ := foldl_bfsPush cur n hlt t
    refine ⟨new ++ (setBits (row n &&& ~~~ t.bfsSeen n).toNat).map fun b => n * 64 + b + 1,
      ?_, ?_, fun y => ?_, fun i => ?_⟩
    · rw [bfsWord, hqueue', hqueue, append_assoc]
    · refine nodup_append.2 ⟨hnodup, nodup_setBits.map fun a b h => by omega,
        fun a ha b hb hab => ?_⟩
      obtain ⟨c, -, rfl⟩ := mem_map.1 hb
      have := ((hnew a).1 ha).2.1
      omega
    · rw [mem_append, hnew, mem_map]
      constructor
      · rintro (⟨h1, h2, h3⟩ | ⟨b, hb, rfl⟩)
        · exact ⟨h1, by omega, h3⟩
        · obtain ⟨hb, hrow⟩ := (hword b).1 hb
          exact ⟨by omega, by omega, hrow⟩
      · rintro ⟨h1, h2, h3⟩
        by_cases hy : y ≤ n * 64
        · exact .inl ⟨h1, hy, h3⟩
        · have hy' : n * 64 + (y - 1 - n * 64) = y - 1 := by omega
          refine .inr ⟨y - 1 - n * 64, (hword _).2 ⟨by omega, ?_⟩, by omega⟩
          rwa [hy']
    · rw [bfsWord, hseen', hseen, mem_append, mem_map, or_assoc]
      simp only [Nat.add_right_cancel_iff, eq_comm]

/-! ## The loop -/

section Loop

variable {g : LockdepGraph} {src dst : ℕ}

/-- A search of the matrix that has expanded the first `head` classes of the queue. -/
structure BfsInv (g : LockdepGraph) (src dst head : ℕ) (s : LockdepBfs) : Prop where
  search : Search (Ordered g) src (s.bfsQueue.take head) (s.bfsQueue.drop head)
  head_le : head ≤ s.bfsQueue.length
  range : ∀ x ∈ s.bfsQueue, 0 < x ∧ x ≤ LOCKDEP_MAX_CLASSES
  seen : SeenOk s
  missed : dst ∉ s.bfsQueue.take head

variable {head cur : ℕ} {s : LockdepBfs}

/-- The queue never outgrows its array. -/
theorem BfsInv.length_le (i : BfsInv g src dst head s) :
    s.bfsQueue.length ≤ LOCKDEP_MAX_CLASSES := by
  have hnodup := i.search.nodup
  rw [take_append_drop] at hnodup
  have hsub : s.bfsQueue ⊆ List.range' 1 LOCKDEP_MAX_CLASSES := fun x hx => by
    have := i.range x hx
    rw [mem_range'_1]
    omega
  simpa using (Nodup.subperm hnodup hsub).length_le

/-- The class at the head of the queue, between what was expanded and what waits. -/
theorem queue_split (hcur : s.bfsQueue[head]? = some cur) :
    head < s.bfsQueue.length ∧ s.bfsQueue.drop head = cur :: s.bfsQueue.drop (head + 1) ∧
      s.bfsQueue.take (head + 1) = s.bfsQueue.take head ++ [cur] := by
  obtain ⟨hlt, hget⟩ := List.getElem?_eq_some_iff.1 hcur
  refine ⟨hlt, ?_, ?_⟩
  · rw [drop_eq_getElem_cons hlt, hget]
  · rw [take_succ_eq_append_getElem hlt, hget]

/-- All rounds of the expansion of a class. -/
abbrev bfsExpand (g : LockdepGraph) (cur : ℕ) (s : LockdepBfs) : LockdepBfs :=
  (List.range (LOCKDEP_MAX_CLASSES / 64)).foldl (bfsWord (g.adj (cur - 1)) cur) s

/-- Expanding the class at the head adds its successors that are not in the queue yet. -/
theorem BfsInv.successors (hg : AdjValid g)
    (i : BfsInv g src dst head s) (hcur : s.bfsQueue[head]? = some cur) :
    ∃ new, (bfsExpand g cur s).bfsQueue = s.bfsQueue ++ new ∧ new.Nodup ∧
      (∀ y, y ∈ new ↔ Ordered g cur y ∧
        y ∉ s.bfsQueue.take head ++ cur :: s.bfsQueue.drop (head + 1)) ∧
      ∀ j, bitTest (bfsExpand g cur s).bfsSeen j = true ↔
        bitTest s.bfsSeen j = true ∨ j + 1 ∈ new := by
  obtain ⟨new, hqueue, hnodup, hnew, hseen⟩ :=
    foldl_bfsWord (g.adj (cur - 1)) cur s (LOCKDEP_MAX_CLASSES / 64)
  have hpos := (i.range cur (mem_of_getElem? hcur)).1
  have hunseen : ∀ y, 0 < y → y ≤ LOCKDEP_MAX_CLASSES →
      (bitTest s.bfsSeen (y - 1) = false ↔ y ∉ s.bfsQueue) := fun y h1 h2 => by
    rw [← Bool.not_eq_true, i.seen (y - 1) (by omega), Nat.sub_add_cancel h1]
  refine ⟨new, hqueue, hnodup, fun y => ?_, hseen⟩
  rw [hnew, ← (queue_split hcur).2.1, take_append_drop]
  constructor
  · rintro ⟨h1, h2, hrow, hseen⟩
    exact ⟨⟨hpos, h1, hrow⟩, (hunseen y h1 h2).1 hseen⟩
  · rintro ⟨hord, hy⟩
    have hle := (hg cur y hord).2
    exact ⟨hord.2.1, hle, hord.2.2, (hunseen y hord.2.1 hle).2 hy⟩

/-- Expanding the class at the head of the queue. -/
theorem BfsInv.expand (hg : AdjValid g)
    (i : BfsInv g src dst head s) (hcur : s.bfsQueue[head]? = some cur) (hne : cur ≠ dst) :
    BfsInv g src dst (head + 1) (bfsExpand g cur s) := by
  obtain ⟨hlt, hdrop, htake⟩ := queue_split hcur
  obtain ⟨new, hqueue, hnodup, hnew, hseen⟩ := i.successors hg hcur
  have hsearch := i.search
  rw [hdrop] at hsearch
  refine ⟨?_, ?_, fun x hx => ?_, fun j hj => ?_, ?_⟩
  · rw [hqueue, take_append_of_le_length hlt, drop_append_of_le_length hlt, htake]
    exact hsearch.expand hnew hnodup
  · rw [hqueue, length_append]
    omega
  · rw [hqueue] at hx
    rcases mem_append.1 hx with hx | hx
    · exact i.range x hx
    · have hord := ((hnew x).1 hx).1
      exact ⟨hord.2.1, (hg cur x hord).2⟩
  · rw [hseen, i.seen j hj, hqueue, mem_append]
  · rw [hqueue, take_append_of_le_length hlt, htake]
    simpa [hne.symm] using i.missed

/-- The loop decides reachability. -/
theorem bfsLoop_iff (hg : AdjValid g) {fuel : ℕ}
    (i : BfsInv g src dst head s) (hfuel : LOCKDEP_MAX_CLASSES < fuel + head) :
    (bfsLoop g.adj dst fuel head s).1 = true ↔ ReflTransGen (Ordered g) src dst := by
  induction fuel generalizing head s with
  | zero =>
    have := i.length_le
    have := i.head_le
    omega
  | succ fuel ih =>
    simp only [bfsLoop]
    split
    next hnone =>
      -- The queue is empty, and what was expanded is what `src` reaches.
      have hlen : s.bfsQueue.length ≤ head := getElem?_eq_none_iff.1 hnone
      have hsearch := i.search
      rw [drop_of_length_le hlen] at hsearch
      exact iff_of_false Bool.false_ne_true fun hreach => i.missed (hsearch.mem_done_iff.2 hreach)
    next cur hcur =>
      split_ifs with hdst
      · obtain ⟨hlt, hget⟩ := List.getElem?_eq_some_iff.1 hcur
        have hmem : cur ∈ s.bfsQueue := hget ▸ List.getElem_mem hlt
        refine iff_of_true rfl (hdst ▸ i.search.reach cur ?_)
        rwa [take_append_drop]
      · exact ih (i.expand hg hcur hdst) (by omega)

/-- The search starts with `src` alone. -/
theorem BfsInv.init (g : LockdepGraph) (dst : ℕ) (parent : ℕ → ℕ) (h1 : 0 < src)
    (h2 : src ≤ LOCKDEP_MAX_CLASSES) :
    BfsInv g src dst 0
      ⟨[src], parent, setBit (fun _ => 0) ((src - 1) / 64) ((src - 1) % 64)⟩ := by
  refine ⟨.init _ src, Nat.zero_le _, ?_, fun i hi => ?_, not_mem_nil⟩
  · simpa using ⟨h1, h2⟩
  · rw [bitTest_setBit _ (Nat.mod_lt _ (by decide))]
    simp only [BitVec.ofNat_eq_ofNat, bitTest_zero, Bool.or_false, beq_iff_eq, mem_singleton]
    omega

end Loop

end Bongos.Sync
