import Mathlib.Logic.Relation

/-!
# Runs of a step relation

A run is the reflexive and transitive closure of a step relation. Every invariant of this
development is proved for one step and carried to whole runs by `Run.invariant`.
-/

namespace Bongos

variable {σ : Type*} {step : σ → σ → Prop}

/-- `s'` is reached from `s` by finitely many steps. -/
abbrev Run (step : σ → σ → Prop) : σ → σ → Prop := Relation.ReflTransGen step

/-- A property of the start of a run that every step keeps holds at its end. -/
theorem Run.invariant {P : σ → Prop} {s s' : σ} (h : Run step s s') (h0 : P s)
    (hstep : ∀ {a b}, P a → step a b → P b) : P s' := by
  induction h with
  | refl => exact h0
  | tail _ hab ih => exact hstep ih hab

variable {ε : Type*} {allowed : σ → ε → Prop} {next : σ → ε → σ}

/-- Each event of the list is allowed where it happens. -/
def AllAllowed (allowed : σ → ε → Prop) (next : σ → ε → σ) : σ → List ε → Prop
  | _, [] => True
  | s, e :: es => allowed s e ∧ AllAllowed allowed next (next s e) es

instance decidableAllAllowed [∀ s e, Decidable (allowed s e)] (s : σ) :
    ∀ es, Decidable (AllAllowed allowed next s es)
  | [] => .isTrue trivial
  | e :: es =>
    have := decidableAllAllowed (next s e) es
    inferInstanceAs (Decidable (_ ∧ _))

/-- A list of events that are allowed is a run. -/
theorem AllAllowed.run {es : List ε} {s : σ} (h : AllAllowed allowed next s es) :
    Run (fun s s' => ∃ e, allowed s e ∧ next s e = s') s (es.foldl next s) := by
  induction es generalizing s with
  | nil => exact .refl
  | cons e es ih => exact .head ⟨e, h.1, rfl⟩ (ih h.2)

end Bongos
