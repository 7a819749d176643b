import Mathlib.Data.List.Nodup
import Mathlib.Order.Nat

/-!
# Cycles and searches in a directed graph

A graph is a relation. Edges into one new vertex close a cycle exactly when the vertex reaches the
start of one of them. A search keeps the vertices it has expanded and those that wait; when none
wait, it has found exactly what the source reaches.
-/

namespace Bongos.GraphSearch

open List

open Relation (TransGen ReflTransGen)

variable {α : Type*} {R : α → α → Prop}

/-! ## Cycles -/

/-- No vertex reaches itself. -/
def Acyclic (R : α → α → Prop) : Prop := ∀ a, ¬ TransGen R a a

/-- The graph with an edge to `v` from every vertex of `S`. -/
def addInto (R : α → α → Prop) (S : Set α) (v : α) : α → α → Prop :=
  fun a b => R a b ∨ a ∈ S ∧ b = v

/-- A path in the extended graph uses no new edge, or it reaches `S` before the first one and comes
from `v` after the last one. -/
theorem transGen_addInto {S : Set α} {v a b : α} (h : TransGen (addInto R S v) a b) :
    TransGen R a b ∨ (∃ s ∈ S, ReflTransGen R a s) ∧ ReflTransGen R v b := by
  induction h with
  | single h =>
    rcases h with h | ⟨hs, rfl⟩
    · exact .inl (.single h)
    · exact .inr ⟨⟨_, hs, .refl⟩, .refl⟩
  | tail _ h ih =>
    rcases h with h | ⟨hs, rfl⟩
    · exact ih.imp (.tail · h) fun ⟨hs, hv⟩ => ⟨hs, hv.tail h⟩
    · refine .inr ⟨?_, .refl⟩
      rcases ih with hab | ⟨hs', -⟩
      · exact ⟨_, hs, hab.to_reflTransGen⟩
      · exact hs'

/-- New edges into `v` keep a graph acyclic exactly when `v` does not reach their starts. -/
theorem acyclic_addInto_iff (hR : Acyclic R) (S : Set α) (v : α) :
    Acyclic (addInto R S v) ↔ ∀ s ∈ S, ¬ ReflTransGen R v s := by
  constructor
  · intro h s hs hvs
    have hle : R ≤ addInto R S v := fun _ _ hab => .inl hab
    have hvs' : ReflTransGen (addInto R S v) v s := ReflTransGen.mono hle v s hvs
    exact h s (.head' (.inr ⟨hs, rfl⟩) hvs')
  · intro h a ha
    rcases transGen_addInto ha with ha | ⟨⟨s, hs, has⟩, hva⟩
    · exact hR a ha
    · exact h s hs (hva.trans has)

/-- A graph with fewer edges has no more cycles. -/
theorem Acyclic.mono {R' : α → α → Prop} (h : Acyclic R) (hle : ∀ a b, R' a b → R a b) :
    Acyclic R' :=
  fun a ha => h a (TransGen.mono hle a a ha)

theorem Acyclic.irrefl (h : Acyclic R) (a : α) : ¬ R a a := fun ha => h a (.single ha)

/-! ## Searches -/

/-- A search from `src` that has expanded `done`, while `queue` waits. -/
structure Search (R : α → α → Prop) (src : α) (done queue : List α) : Prop where
  nodup : (done ++ queue).Nodup
  src_mem : src ∈ done ++ queue
  reach : ∀ x ∈ done ++ queue, ReflTransGen R src x
  closed : ∀ x ∈ done, ∀ y, R x y → y ∈ done ++ queue

variable {src : α} {done queue : List α}

theorem Search.init (R : α → α → Prop) (src : α) : Search R src [] [src] :=
  ⟨nodup_singleton src, mem_singleton_self src,
    fun _ hx => mem_singleton.1 hx ▸ .refl, fun _ hx => (not_mem_nil hx).elim⟩

variable {x : α} {new : List α}

/-- Expanding the first vertex that waits puts its new successors at the end of the queue. -/
theorem Search.expand (h : Search R src done (x :: queue))
    (hnew : ∀ y, y ∈ new ↔ R x y ∧ y ∉ done ++ x :: queue) (hnodup : new.Nodup) :
    Search R src (done ++ [x]) (queue ++ new) := by
  have hlist : done ++ [x] ++ (queue ++ new) = done ++ x :: queue ++ new := by simp
  have hx : ReflTransGen R src x := h.reach x (by simp)
  refine ⟨?_, ?_, fun y hy => ?_, fun y hy z hyz => ?_⟩
  · rw [hlist]
    exact nodup_append.2 ⟨h.nodup, hnodup, fun a ha b hb hab => ((hnew b).1 hb).2 (hab ▸ ha)⟩
  · rw [hlist]
    exact mem_append_left _ h.src_mem
  · rw [hlist] at hy
    rcases mem_append.1 hy with hy | hy
    · exact h.reach y hy
    · exact hx.tail ((hnew y).1 hy).1
  · rw [hlist]
    rcases mem_append.1 hy with hy | hy
    · exact mem_append_left _ (h.closed y hy z hyz)
    · rw [mem_singleton] at hy
      subst hy
      by_cases hz : z ∈ done ++ y :: queue
      · exact mem_append_left _ hz
      · exact mem_append_right _ ((hnew z).2 ⟨hyz, hz⟩)

/-- When no vertex waits, the search has found everything. -/
theorem Search.mem_done_iff (h : Search R src done []) : x ∈ done ↔ ReflTransGen R src x := by
  have hnil := append_nil done
  refine ⟨fun hx => h.reach x (by rwa [hnil]), fun hx => ?_⟩
  induction hx with
  | refl => exact hnil ▸ h.src_mem
  | tail _ hyz ih => exact hnil ▸ h.closed _ ih _ hyz

/-! ## Shortest paths -/

/-- A path of `n` edges. -/
def Path (R : α → α → Prop) : ℕ → α → α → Prop
  | 0, a, b => a = b
  | n + 1, a, b => ∃ c, Path R n a c ∧ R c b

/-- The shortest paths from `a` to `b` have `n` edges. -/
def Distance (R : α → α → Prop) (n : ℕ) (a b : α) : Prop :=
  Path R n a b ∧ ∀ m, Path R m a b → n ≤ m

/-- A search that knows from where, and after how many edges, it came to each vertex: it goes by
layers, so the queue holds the rest of one layer and then the start of the next. -/
structure Layered (R : α → α → Prop) (src : α) (done queue : List α) (depth : α → ℕ)
    (parent : α → α) : Prop where
  depth_src : depth src = 0
  parent_spec : ∀ x ∈ done ++ queue, x ≠ src →
    parent x ∈ done ∧ R (parent x) x ∧ depth x = depth (parent x) + 1
  succ_le : ∀ x ∈ done, ∀ y, R x y → depth y ≤ depth x + 1
  sorted : queue.Pairwise fun x y => depth x ≤ depth y
  span : ∀ q ∈ queue.head?, ∀ x ∈ done ++ queue, depth x ≤ depth q + 1
  depth_le : ∀ x ∈ done ++ queue, depth x ≤ done.length

theorem Layered.init (R : α → α → Prop) (src : α) (parent : α → α) :
    Layered R src [] [src] (fun _ => 0) parent := by
  refine ⟨rfl, fun x hx hne => ?_, fun x hx => (not_mem_nil hx).elim,
    pairwise_singleton _ _, fun _ _ _ _ => Nat.zero_le _, fun _ _ => le_rfl⟩
  exact absurd (mem_singleton.1 hx) hne

variable {depth : α → ℕ} {parent parent' : α → α}

/-- The new successors of the first vertex are one layer below it. -/
theorem Layered.expand [DecidableEq α] (l : Layered R src done (x :: queue) depth parent)
    (h : Search R src done (x :: queue))
    (hnew : ∀ y, y ∈ new ↔ R x y ∧ y ∉ done ++ x :: queue)
    (hparent : ∀ y ∈ done ++ x :: queue ++ new, parent' y = if y ∈ new then x else parent y) :
    Layered R src (done ++ [x]) (queue ++ new)
      (fun y => if y ∈ new then depth x + 1 else depth y) parent' := by
  have hlist : done ++ [x] ++ (queue ++ new) = done ++ x :: queue ++ new := by simp
  have hold : ∀ {y}, y ∈ done ++ x :: queue → y ∉ new := fun hy hmem => ((hnew _).1 hmem).2 hy
  have hx : x ∈ done ++ x :: queue := by simp
  have hspan : ∀ y ∈ done ++ x :: queue, depth y ≤ depth x + 1 := l.span x rfl
  have hqueue : ∀ y ∈ queue, y ∈ done ++ x :: queue := fun y hy => by simp [hy]
  refine ⟨?_, fun y hy hne => ?_, fun y hy z hyz => ?_, ?_, fun q hq y hy => ?_, fun y hy => ?_⟩
  · rw [if_neg (hold h.src_mem)]
    exact l.depth_src
  · rw [hlist] at hy
    rw [hparent y hy]
    rcases mem_append.1 hy with hy | hy
    · obtain ⟨hdone, hedge, hdepth⟩ := l.parent_spec y hy hne
      rw [if_neg (hold hy), if_neg (hold hy), if_neg (hold (mem_append_left _ hdone))]
      exact ⟨mem_append_left _ hdone, hedge, hdepth⟩
    · rw [if_pos hy, if_pos hy, if_neg (hold hx)]
      exact ⟨by simp, ((hnew y).1 hy).1, rfl⟩
  · rcases mem_append.1 hy with hy | hy
    · have hz := h.closed y hy z hyz
      rw [if_neg (hold hz), if_neg (hold (mem_append_left _ hy))]
      exact l.succ_le y hy z hyz
    · rw [mem_singleton] at hy
      subst hy
      rw [if_neg (hold hx)]
      split_ifs with hz
      · exact le_rfl
      · by_contra hgt
        exact hz ((hnew z).2 ⟨hyz, fun hz => hgt (hspan z hz)⟩)
  · refine pairwise_append.2 ⟨?_, ?_, fun y hy z hz => ?_⟩
    · refine (pairwise_cons.1 l.sorted).2.imp_of_mem fun {y z} hy hz hyz => ?_
      rwa [if_neg (hold (hqueue y hy)), if_neg (hold (hqueue z hz))]
    · refine pairwise_of_forall_mem_list fun y hy z hz => ?_
      rw [if_pos hy, if_pos hz]
    · rw [if_neg (hold (hqueue y hy)), if_pos hz]
      exact hspan y (hqueue y hy)
  · -- The next vertex is in the layer of `x` or in the one below, where the new ones are.
    have hq' : depth x ≤ if q ∈ new then depth x + 1 else depth q := by
      split_ifs with hqn
      · exact Nat.le_succ _
      · have hmem : q ∈ queue ++ new := mem_of_mem_head? hq
        exact (pairwise_cons.1 l.sorted).1 q ((mem_append.1 hmem).resolve_right hqn)
    rw [hlist] at hy
    rcases mem_append.1 hy with hy | hy
    · rw [if_neg (hold hy)]
      exact (hspan y hy).trans (by omega)
    · rw [if_pos hy]
      omega
  · rw [hlist] at hy
    rw [length_append, length_singleton]
    rcases mem_append.1 hy with hy | hy
    · rw [if_neg (hold hy)]
      exact (l.depth_le y hy).trans (Nat.le_succ _)
    · rw [if_pos hy]
      exact Nat.succ_le_succ (l.depth_le x hx)

/-- The parents lead back to the source. -/
theorem Layered.path (l : Layered R src done queue depth parent) {n : ℕ}
    (hx : x ∈ done ++ queue) (hn : depth x = n) : Path R n src x := by
  induction n generalizing x with
  | zero =>
    by_contra hne
    obtain ⟨-, -, hdepth⟩ := l.parent_spec x hx fun h => hne h.symm
    omega
  | succ n ih =>
    have hne : x ≠ src := by
      rintro rfl
      rw [l.depth_src] at hn
      cases hn
    obtain ⟨hdone, hedge, hdepth⟩ := l.parent_spec x hx hne
    exact ⟨parent x, ih (mem_append_left _ hdone) (by omega), hedge⟩

/-- A path comes to vertices that were found with no more edges, or through one that still waits. -/
theorem Layered.path_cases (l : Layered R src done queue depth parent) (h : Search R src done queue)
    {n : ℕ} {y : α} (hy : Path R n src y) :
    (y ∈ done ++ queue ∧ depth y ≤ n) ∨ ∃ q ∈ queue, depth q < n := by
  induction n generalizing y with
  | zero =>
    obtain rfl : src = y := hy
    exact .inl ⟨h.src_mem, l.depth_src.le⟩
  | succ n ih =>
    obtain ⟨x, hx, hxy⟩ := hy
    rcases ih hx with ⟨hmem, hdepth⟩ | ⟨q, hq, hdepth⟩
    · rcases mem_append.1 hmem with hdone | hwait
      · have := l.succ_le x hdone y hxy
        exact .inl ⟨h.closed x hdone y hxy, by omega⟩
      · exact .inr ⟨x, hwait, by omega⟩
    · exact .inr ⟨q, hq, by omega⟩

/-- The vertex at the head of the queue was found by a shortest path. -/
theorem Layered.distance (l : Layered R src done (x :: queue) depth parent)
    (h : Search R src done (x :: queue)) : Distance R (depth x) src x := by
  refine ⟨l.path (by simp) rfl, fun m hm => ?_⟩
  rcases l.path_cases h hm with ⟨-, hle⟩ | ⟨q, hq, hlt⟩
  · exact hle
  · rcases mem_cons.1 hq with rfl | hq
    · exact hlt.le
    · exact ((pairwise_cons.1 l.sorted).1 q hq).trans hlt.le

end Bongos.GraphSearch
