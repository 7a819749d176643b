import Mathlib.Logic.Basic

/-!
# Calls that may fail and that change a state

A C function that may end in a panic, with what it has written by then, is a program in
`ExceptT ε (StateM σ)`. `exec` runs it from a state. A call with many callees is executed callee by
callee: `exec_bind_of_ok` goes on after one that returns, and `exec_bind_of_error` stops at one that
does not.
-/

namespace Bongos.FallibleState

universe u

variable {ε σ α β : Type u} {x : ExceptT ε (StateM σ) α} {f : α → ExceptT ε (StateM σ) β} {s s' : σ}

/-- How a call ends, and the state that it leaves. -/
def exec (x : ExceptT ε (StateM σ) α) (s : σ) : Except ε α × σ := x.run.run s

theorem exec_bind : exec (x >>= f) s = match exec x s with
      | (.ok a, s') => exec (f a) s'
      | (.error e, s') => (.error e, s') := by
  show (ExceptT.bindCont f (x.run.run s).1).run (x.run.run s).2 = _
  unfold exec
  rcases x.run.run s with ⟨_ | _, _⟩ <;> rfl

theorem exec_bind_of_ok {a : α} (h : exec x s = (.ok a, s')) :
    exec (x >>= f) s = exec (f a) s' := by
  rw [exec_bind, h]

theorem exec_bind_of_error {e : ε} (h : exec x s = (.error e, s')) :
    exec (x >>= f) s = (.error e, s') := by
  rw [exec_bind, h]

/-- A call that returns has gone through its first callee. -/
theorem exec_bind_eq_ok {b : β} (h : exec (x >>= f) s = (.ok b, s')) :
    ∃ a t, exec x s = (.ok a, t) ∧ exec (f a) t = (.ok b, s') := by
  rw [exec_bind] at h
  split at h
  next a t hx => exact ⟨a, t, hx, h⟩
  next => cases h

/-- What every round of a loop keeps holds after a loop that returns. -/
theorem exec_forM_ok {ε σ γ : Type} {P : σ → Prop} {g : γ → ExceptT ε (StateM σ) PUnit} {l : List γ}
    {s s' : σ} (h : exec (l.forM g) s = (.ok ⟨⟩, s')) (h0 : P s)
    (hstep : ∀ {a t t'}, P t → exec (g a) t = (.ok ⟨⟩, t') → P t') : P s' := by
  induction l generalizing s with
  | nil =>
    cases h
    exact h0
  | cons a l ih =>
    obtain ⟨⟨⟩, t, ha, h⟩ := exec_bind_eq_ok h
    exact ih h (hstep h0 ha)

@[simp]
theorem exec_get_bind (g : σ → ExceptT ε (StateM σ) β) (s : σ) :
    exec (get >>= g) s = exec (g s) s :=
  rfl

@[simp]
theorem exec_modify_bind {ε σ β : Type} (h : σ → σ) (g : PUnit → ExceptT ε (StateM σ) β) (s : σ) :
    exec (modify h >>= g) s = exec (g ⟨⟩) (h s) := rfl

@[simp]
theorem exec_modify {ε σ : Type} (h : σ → σ) (s : σ) :
    exec (modify h : ExceptT ε (StateM σ) PUnit) s = (.ok ⟨⟩, h s) := rfl

end Bongos.FallibleState
