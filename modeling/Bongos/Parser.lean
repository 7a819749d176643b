import Mathlib.Data.List.Basic

/-!
# Parsers and languages

A parser takes a prefix off its input, or fails. `Reads view p L` says that `p` reads exactly the
language `L`: it takes every word that belongs to a value and returns the value, and what it takes
and returns is in the language. Here `view` is the input that a state of the parser still has before
it.
-/

namespace Bongos

universe u

variable {σ α γ : Type u} {β : Type*} {view : σ → List β} {p : StateT σ Option α}
  {f : α → StateT σ Option γ} {L L' : α → List β → Prop} {M : α → γ → List β → Prop}

/-- The parser reads exactly the language. -/
structure Reads (view : σ → List β) (p : StateT σ Option α) (L : α → List β → Prop) : Prop where
  complete : ∀ {s a w rest}, L a w → view s = w ++ rest → ∃ s', p s = some (a, s') ∧ view s' = rest
  sound : ∀ {s a s'}, p s = some (a, s') → ∃ w, L a w ∧ view s = w ++ view s'

theorem Reads.congr (h : Reads view p L) (hL : ∀ a w, L a w ↔ L' a w) : Reads view p L' :=
  ⟨fun ha => h.complete ((hL _ _).2 ha), fun hp =>
    let ⟨w, hw, hs⟩ := h.sound hp
    ⟨w, (hL _ _).1 hw, hs⟩⟩

/-- A parser's language is unambiguous: an input starts with at most one word of it. -/
theorem Reads.unique (h : Reads view p L) (a a' : α) {s : σ} {w w' rest rest' : List β} (ha : L a w)
    (ha' : L a' w') (hs : view s = w ++ rest) (hs' : view s = w' ++ rest') :
    a = a' ∧ rest = rest' := by
  obtain ⟨s1, hrun, hrest⟩ := h.complete ha hs
  obtain ⟨s2, hrun', hrest'⟩ := h.complete ha' hs'
  rw [hrun] at hrun'
  cases hrun'
  exact ⟨rfl, hrest.symm.trans hrest'⟩

theorem reads_pure (a : α) : Reads view (pure a) fun b w => b = a ∧ w = [] := by
  constructor
  · rintro s _ _ rest ⟨rfl, rfl⟩ hs
    exact ⟨s, rfl, hs⟩
  · intro s b s' h
    cases h
    exact ⟨[], ⟨rfl, rfl⟩, rfl⟩

theorem reads_failure : Reads view (failure : StateT σ Option α) fun _ _ => False :=
  ⟨fun h => h.elim, fun h => (nomatch h)⟩

/-- A function that reads nothing. -/
theorem reads_lift (o : Option α) : Reads view (StateT.lift o) fun a w => o = some a ∧ w = [] := by
  cases o with
  | none => exact reads_failure.congr fun a w => ⟨False.elim, fun h => (nomatch h.1)⟩
  | some b => exact (reads_pure b).congr fun a w => by rw [Option.some.injEq, eq_comm]

/-- Two parsers, one after the other. The second one may rely on what the first one read. -/
theorem Reads.bind (hp : Reads view p L) (hf : ∀ a w, L a w → Reads view (f a) (M a)) :
    Reads view (p >>= f) fun b w => ∃ a w1 w2, L a w1 ∧ M a b w2 ∧ w = w1 ++ w2 := by
  constructor
  · rintro s b _ rest ⟨a, w1, w2, ha, hb, rfl⟩ hs
    rw [List.append_assoc] at hs
    obtain ⟨s1, hrun, hview⟩ := hp.complete ha hs
    obtain ⟨s2, hrun', hview'⟩ := (hf a w1 ha).complete hb hview
    refine ⟨s2, ?_, hview'⟩
    show (p s >>= fun r => f r.1 r.2) = _
    rw [hrun]
    exact hrun'
  · intro s b s' h
    obtain ⟨⟨a, s1⟩, hrun, hrun'⟩ := Option.bind_eq_some_iff.1 h
    obtain ⟨w1, ha, hs⟩ := hp.sound hrun
    obtain ⟨w2, hb, hs1⟩ := (hf a w1 ha).sound hrun'
    exact ⟨w1 ++ w2, ⟨a, w1, w2, ha, hb, rfl⟩, by rw [hs, hs1, List.append_assoc]⟩

/-- A test before a parser. -/
theorem Reads.ite {c : Prop} [Decidable c] {q : StateT σ Option α} (hp : c → Reads view p L)
    (hq : ¬ c → Reads view q L') :
    Reads view (if c then p else q) fun a w => (c ∧ L a w) ∨ (¬ c ∧ L' a w) := by
  split_ifs with hc
  · exact (hp hc).congr fun a w => by simp [hc]
  · exact (hq hc).congr fun a w => by simp [hc]

end Bongos
