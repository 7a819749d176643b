import Mathlib.Data.List.Basic

/-!
# Loops that may fail

A loop of C code that returns early on an error is a `foldlM` in `Except`. The rules here are for an
invariant on the elements seen so far and the state: one for a loop that is known to have succeeded,
one that shows that every round succeeds, and one for a loop that may fail in some ways only
(`Outcome`).
-/

namespace Bongos.FallibleLoop

open List

universe u

variable {ε α : Type*} {σ τ : Type u} {step : σ → α → Except ε σ} {P : List α → σ → Prop}

variable {f : σ → Except ε τ}

theorem bind_eq_ok {x : Except ε σ} {b : τ} : (x >>= f) = .ok b ↔ ∃ a, x = .ok a ∧ f a = .ok b := by
  cases x with
  | error e => exact ⟨fun h => (nomatch h), fun ⟨_, h, _⟩ => (nomatch h)⟩
  | ok a => exact ⟨fun h => ⟨a, rfl, h⟩, fun ⟨_, h, hf⟩ => by cases h; exact hf⟩

theorem exists_ok_of_isOk {x : Except ε σ} (h : x.isOk = true) : ∃ s, x = .ok s := by
  cases x with
  | error e => exact absurd h Bool.false_ne_true
  | ok s => exact ⟨s, rfl⟩

variable {l : List α} {s : σ}

/-- A loop that succeeds keeps what every successful round keeps. -/
theorem foldlM_ok {s' : σ} (h : l.foldlM step s = .ok s') (h0 : P [] s)
    (hstep : ∀ {seen a rest s s'}, l = seen ++ a :: rest → P seen s → step s a = .ok s' →
      P (seen ++ [a]) s') : P l s' := by
  -- The induction is on the elements to come, with those seen as an extra argument.
  suffices ∀ (rest seen : List α) (s : σ), l = seen ++ rest → P seen s →
      rest.foldlM step s = .ok s' → P l s' from this l [] s rfl h0 h
  intro rest
  induction rest with
  | nil =>
    intro seen s hl hP h
    cases h
    rwa [hl, append_nil]
  | cons a rest ih =>
    intro seen s hl hP h
    obtain ⟨s1, h1, h⟩ := bind_eq_ok.1 h
    exact ih (seen ++ [a]) s1 (by simp [hl]) (hstep hl hP h1) h

/-- A loop whose every round succeeds and keeps the invariant succeeds. -/
theorem exists_foldlM_ok (h0 : P [] s)
    (hstep : ∀ {seen a rest s}, l = seen ++ a :: rest → P seen s →
      ∃ s', step s a = .ok s' ∧ P (seen ++ [a]) s') : ∃ s', l.foldlM step s = .ok s' ∧ P l s' := by
  suffices ∀ (rest seen : List α) (s : σ), l = seen ++ rest → P seen s →
      ∃ s', rest.foldlM step s = .ok s' ∧ P l s' from this l [] s rfl h0
  intro rest
  induction rest with
  | nil => exact fun seen s hl hP => ⟨s, rfl, by rwa [hl, append_nil]⟩
  | cons a rest ih =>
    intro seen s hl hP
    obtain ⟨s1, h1, hP1⟩ := hstep hl hP
    obtain ⟨s', h', hP'⟩ := ih (seen ++ [a]) s1 (by simp [hl]) hP1
    exact ⟨s', by rw [foldlM_cons, h1]; exact h', hP'⟩

/-- A call returns a state with `Q`, or fails with an error that `E` allows. -/
def Outcome (E : ε → Prop) (Q : σ → Prop) : Except ε σ → Prop
  | .ok s => Q s
  | .error e => E e

section Outcome

variable {E : ε → Prop} {Q Q' : σ → Prop} {R : τ → Prop} {x : Except ε σ}

section

variable (h : Outcome E Q x)

include h

theorem Outcome.imp {E' : ε → Prop} (hE : ∀ e, E e → E' e)
    (hQ : ∀ s, Q s → Q' s) : Outcome E' Q' x := by
  cases x with
  | error e => exact hE e h
  | ok s => exact hQ s h

theorem Outcome.mono (hQ : ∀ s, Q s → Q' s) : Outcome E Q' x :=
  h.imp (fun _ he => he) hQ

theorem Outcome.eq_ok : Outcome E (fun s => x = .ok s ∧ Q s) x := by
  cases x with
  | error e => exact h
  | ok s => exact ⟨rfl, h⟩

theorem Outcome.of_eq_ok (hx : x = .ok s) : Q s := by
  subst hx
  exact h

theorem Outcome.cases : (∃ e, x = .error e ∧ E e) ∨ ∃ s, x = .ok s ∧ Q s := by
  cases x with
  | error e => exact .inl ⟨e, rfl, h⟩
  | ok s => exact .inr ⟨s, rfl, h⟩

/-- A call that cannot fail returns. -/
theorem Outcome.exists_ok (hE : ∀ e, ¬ E e) : ∃ s, x = .ok s ∧ Q s := by
  cases x with
  | error e => exact absurd h (hE e)
  | ok s => exact ⟨s, rfl, h⟩

theorem Outcome.bind (hf : ∀ s, Q s → Outcome E R (f s)) : Outcome E R (x >>= f) := by
  cases x with
  | error e => exact h
  | ok s => exact hf s h

end

/-- A call that is made under a condition, with what follows it in both branches. -/
theorem Outcome.ite_bind {c : Prop} [Decidable c] {y : Except ε σ}
    (h : Outcome E Q (if c then x else y)) (hf : ∀ s, Q s → Outcome E R (f s)) :
    Outcome E R (if c then x >>= f else y >>= f) := by
  by_cases hc : c
  · rw [if_pos hc] at h ⊢
    exact h.bind hf
  · rw [if_neg hc] at h ⊢
    exact h.bind hf

/-- A loop each of whose rounds keeps the invariant or fails as allowed. -/
theorem foldlM_outcome (h0 : P [] s) (hstep : ∀ {seen a rest s}, l = seen ++ a :: rest → P seen s →
      Outcome E (P (seen ++ [a])) (step s a)) : Outcome E (P l) (l.foldlM step s) := by
  suffices ∀ (rest seen : List α) (s : σ), l = seen ++ rest → P seen s →
      Outcome E (P l) (rest.foldlM step s) from this l [] s rfl h0
  intro rest
  induction rest with
  | nil =>
    intro seen s hl hP
    rw [hl, append_nil]
    exact hP
  | cons a rest ih =>
    intro seen s hl hP
    exact (hstep hl hP).bind fun s1 hP1 => ih (seen ++ [a]) s1 (by simp [hl]) hP1

/-- A loop of checks shows every one of them, or fails as one of them may. -/
theorem forM_outcome {check : α → Except ε PUnit} {C : α → Prop}
    (h : ∀ a ∈ l, Outcome E (fun _ => C a) (check a)) :
    Outcome E (fun _ => ∀ a ∈ l, C a) (l.forM check) := by
  induction l with
  | nil => exact fun a ha => nomatch ha
  | cons a l ih =>
    refine (h a mem_cons_self).bind fun _ ha => ?_
    exact (ih fun b hb => h b (mem_cons_of_mem a hb)).mono fun _ hl =>
      forall_mem_cons.2 ⟨ha, hl⟩

theorem mapM_outcome {f : α → Except ε τ} (h : ∀ a ∈ l, Outcome E (fun _ => True) (f a)) :
    Outcome E (fun _ => True) (l.mapM f) := by
  induction l with
  | nil => exact trivial
  | cons a l ih =>
    rw [mapM_cons]
    refine (h a mem_cons_self).bind fun b _ => ?_
    exact (ih fun b hb => h b (mem_cons_of_mem a hb)).bind fun _ _ => trivial

end Outcome

/-- What the results of a loop look like, if each result looks so. -/
theorem map_of_mapM {f : α → Except ε τ} {ys : List τ} {γ : Type*} (view : τ → γ) {g : α → γ}
    (h : l.mapM f = .ok ys) (hfg : ∀ a ∈ l, ∀ b, f a = .ok b → view b = g a) :
    ys.map view = l.map g := by
  induction l generalizing ys with
  | nil =>
    cases h
    rfl
  | cons a l ih =>
    rw [mapM_cons] at h
    obtain ⟨b, hb, h⟩ := bind_eq_ok.1 h
    obtain ⟨bs, hbs, h⟩ := bind_eq_ok.1 h
    cases h
    rw [map_cons, map_cons, hfg a mem_cons_self b hb, ih hbs fun a ha =>
      hfg a (mem_cons_of_mem _ ha)]

/-! ## Loops that decode what they act on -/

section Decode

variable {ε' : Type*} {β : Type u} (decode : α → Except ε' (List β)) {l : List α} {s s' : σ}

/-- A loop fails as a round may, or it has decoded every element and its rounds make up one
transition. -/
theorem foldlM_decode {E : ε → Prop} {P : σ → Prop} {T : σ → List β → σ → Prop}
    (hnil : ∀ s, T s [] s) (happend : ∀ {s s1 s' bs cs}, T s bs s1 → T s1 cs s' → T s (bs ++ cs) s')
    (hstep : ∀ {s a}, a ∈ l → P s →
      Outcome E (fun s' => P s' ∧ ∃ bs, decode a = .ok bs ∧ T s bs s') (step s a)) (hs : P s) :
    Outcome E (fun s' => P s' ∧ ∃ bss, l.mapM decode = .ok bss ∧ T s bss.flatten s')
      (l.foldlM step s) := by
  induction l generalizing s with
  | nil => exact ⟨hs, [], rfl, hnil _⟩
  | cons a l ih =>
    refine (hstep mem_cons_self hs).bind ?_
    rintro s1 ⟨hs1, bs, hbs, hT⟩
    refine (ih (fun ha => hstep (mem_cons_of_mem a ha)) hs1).mono ?_
    rintro s' ⟨hs', bss, hbss, hT'⟩
    exact ⟨hs', bs :: bss, by rw [mapM_cons, hbs, hbss]; rfl, happend hT hT'⟩

/-- A loop succeeds if all that it decodes can be acted on, in order. -/
theorem exists_foldlM_decode {δ : Type u} (view : σ → δ) {act : δ → β → Except ε' δ}
    {bss : List (List β)} {d : δ}
    (hstep : ∀ {s a bs d}, decode a = .ok bs → bs.foldlM act (view s) = .ok d →
      ∃ s', step s a = .ok s' ∧ view s' = d)
    (hdecode : l.mapM decode = .ok bss) (hact : bss.flatten.foldlM act (view s) = .ok d) :
    ∃ s', l.foldlM step s = .ok s' ∧ view s' = d := by
  induction l generalizing s bss with
  | nil =>
    cases hdecode
    cases hact
    exact ⟨s, rfl, rfl⟩
  | cons a l ih =>
    rw [mapM_cons] at hdecode
    obtain ⟨bs, hbs, hdecode⟩ := bind_eq_ok.1 hdecode
    obtain ⟨bss, hbss, hdecode⟩ := bind_eq_ok.1 hdecode
    cases hdecode
    rw [flatten_cons, foldlM_append] at hact
    obtain ⟨d1, hd1, hact⟩ := bind_eq_ok.1 hact
    obtain ⟨s1, hs1, rfl⟩ := hstep hbs hd1
    obtain ⟨s', hs', hd⟩ := ih hbss hact
    exact ⟨s', by rw [foldlM_cons, hs1]; exact hs', hd⟩

end Decode

end Bongos.FallibleLoop
