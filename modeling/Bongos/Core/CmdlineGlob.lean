import Bongos.BoundedLoop
import Mathlib.Data.List.Infix

/-!
# `cmdlineGlobMatch`

The wildcard matcher of `cmdline.c`, which keeps one point to come back to, and the language of a
pattern (`Glob`). The loop compares the characters before it looks for a star, so a star in the name
that meets a star in the pattern is taken for a literal one. What the matcher accepts is therefore a
smaller language, `LiteralGlob`, for every pattern and every name
(`cmdlineGlobMatch_iff_literalGlob`).
-/

namespace Bongos.Core

open List

/-- A C string, without its terminator. -/
structure CString where
  bytes : List (BitVec 8)
  nonzero : ∀ c ∈ bytes, c ≠ 0

/-- The character at a pointer into a string; the terminator is at its end. -/
def deref (p : List (BitVec 8)) : BitVec 8 := p.headD 0

/-- `'*'`. -/
def STAR : BitVec 8 := 42

/-- The variables of `cmdlineGlobMatch`: `p`, `n`, and the pair of `starP` and `starN`. -/
structure GlobState where
  p : List (BitVec 8)
  n : List (BitVec 8)
  star : Option (List (BitVec 8) × List (BitVec 8))

/-- One round of the loop. There is none at the end of the name, and none where the source returns
`false`. -/
def globStep (s : GlobState) : Option GlobState :=
  if deref s.n = 0 then none
  else if deref s.p = deref s.n then some { s with p := s.p.tail, n := s.n.tail }
  else if deref s.p = STAR then some { p := s.p.tail, n := s.n, star := some (s.p, s.n) }
  else match s.star with
    | some (starP, starN) =>
      some { p := starP.tail, n := starN.tail, star := some (starP, starN.tail) }
    | none => none

/-- More rounds than the loop has. -/
def globRounds (pattern name : List (BitVec 8)) : ℕ :=
  (name.length + 2) * (pattern.length + name.length + 1) + 1

def cmdlineGlobMatch (pattern name : CString) : Bool :=
  match runLoop globStep (globRounds pattern.bytes name.bytes)
    ⟨pattern.bytes, name.bytes, none⟩ with
  | none => false
  | some s => deref s.n = 0 ∧ deref (s.p.dropWhile (· = STAR)) = 0

/-! ## The language of a pattern -/

/-- The name is the pattern with every star replaced by some string. -/
inductive Glob : List (BitVec 8) → List (BitVec 8) → Prop
  | nil : Glob [] []
  | char {c : BitVec 8} {p n : List (BitVec 8)} (hc : c ≠ STAR) (h : Glob p n) :
      Glob (c :: p) (c :: n)
  | star {p n : List (BitVec 8)} (s : List (BitVec 8)) (h : Glob p n) : Glob (STAR :: p) (s ++ n)

/-- As `Glob`, but a star of the pattern that is to be replaced where the name has a star stands for
that star alone. -/
inductive LiteralGlob : List (BitVec 8) → List (BitVec 8) → Prop
  | nil : LiteralGlob [] []
  | same {p n : List (BitVec 8)} (c : BitVec 8) (h : LiteralGlob p n) :
      LiteralGlob (c :: p) (c :: n)
  | star {p n m : List (BitVec 8)} (hn : deref n ≠ STAR) (hm : m <:+ n) (h : LiteralGlob p m) :
      LiteralGlob (STAR :: p) n

variable {p n m u : List (BitVec 8)} {c d : BitVec 8}

theorem LiteralGlob.glob (h : LiteralGlob p n) : Glob p n := by
  induction h with
  | nil => exact .nil
  | same c _ ih =>
    by_cases hc : c = STAR
    · rw [hc]
      exact .star [STAR] ih
    · exact .char hc ih
  | star _ hm _ ih =>
    obtain ⟨s, rfl⟩ := hm
    exact .star s ih

/-- On a name without stars the two languages agree. -/
theorem Glob.literalGlob (h : Glob p n) (hn : STAR ∉ n) : LiteralGlob p n := by
  induction h with
  | nil => exact .nil
  | char _ _ ih => exact .same _ (ih fun hmem => hn (mem_cons_of_mem _ hmem))
  | @star p n s _ ih =>
    refine .star ?_ (suffix_append s n) (ih fun hmem => hn (mem_append_right s hmem))
    cases hsn : s ++ n with
    | nil => decide
    | cons d rest =>
      rintro rfl
      exact hn (hsn ▸ mem_cons_self)

theorem literalGlob_same_iff : LiteralGlob (c :: p) (c :: n) ↔ LiteralGlob p n := by
  refine ⟨fun h => ?_, .same c⟩
  cases h with
  | same _ h => exact h
  | star hn => exact absurd rfl hn

/-- Whatever the first character of a pattern stands for, the others match what is left. -/
theorem LiteralGlob.tail (h : LiteralGlob (c :: p) n) : ∃ m, m <:+ n ∧ LiteralGlob p m := by
  cases h with
  | same _ h => exact ⟨_, suffix_cons c _, h⟩
  | star _ hm h => exact ⟨_, hm, h⟩

theorem literalGlob_star_iff (hn : deref n ≠ STAR) :
    LiteralGlob (STAR :: p) n ↔ ∃ m, m <:+ n ∧ LiteralGlob p m :=
  ⟨LiteralGlob.tail, fun ⟨_, hm, h⟩ => .star hn hm h⟩

/-- Only stars match the empty name. -/
theorem literalGlob_empty_iff : LiteralGlob p [] ↔ ∀ c ∈ p, c = STAR := by
  induction p with
  | nil => exact ⟨fun _ c hc => absurd hc not_mem_nil, fun _ => .nil⟩
  | cons c p ih =>
    rw [forall_mem_cons, ← ih]
    constructor
    · intro h
      cases h with
      | star _ hm h => exact ⟨rfl, suffix_nil.1 hm ▸ h⟩
    · rintro ⟨rfl, h⟩
      exact .star (by decide) (suffix_refl _) h

/-- A pattern that starts as the name does matches no later part of the name any better: what
follows the common start matches at the place where it stands, or later. -/
theorem LiteralGlob.of_append (h : LiteralGlob (u ++ p) m) (hm : m <:+ u ++ n) :
    ∃ m', m' <:+ n ∧ LiteralGlob p m' := by
  induction u generalizing m with
  | nil => exact ⟨m, hm, h⟩
  | cons c u ih =>
    rcases suffix_cons_iff.1 hm with rfl | hm
    · -- At the same place the characters are compared, a star too.
      exact ih (literalGlob_same_iff.1 h) (suffix_refl _)
    · obtain ⟨m', hm', h'⟩ := h.tail
      exact ih h' (hm'.trans hm)

/-! ## The invariant of the loop -/

/-- What can still match: the rest as it is, or a longer string for the star to come back to. -/
def GlobState.Open (s : GlobState) : Prop :=
  LiteralGlob s.p s.n ∨
    ∃ starP starN m, s.star = some (starP, starN) ∧ m <:+ starN.tail ∧ LiteralGlob starP.tail m

/-- The invariant of the loop. Since the star to come back to, the pattern and the name were the
same. -/
structure GlobInv (pattern name : List (BitVec 8)) (s : GlobState) : Prop where
  p_suffix : s.p <:+ pattern
  n_suffix : s.n <:+ name
  open_iff : LiteralGlob pattern name ↔ s.Open
  back : ∀ starP starN, s.star = some (starP, starN) → starP <:+ pattern ∧ starN <:+ name ∧
    ∃ u, starP = STAR :: (u ++ s.p) ∧ starN = u ++ s.n

variable {pattern name : List (BitVec 8)} {s s' : GlobState}
  {back : Option (List (BitVec 8) × List (BitVec 8))}

theorem GlobInv.init (pattern name : List (BitVec 8)) :
    GlobInv pattern name ⟨pattern, name, none⟩ := by
  refine ⟨suffix_refl _, suffix_refl _, ⟨.inl, ?_⟩, fun _ _ h => nomatch h⟩
  rintro (h | ⟨_, _, _, h, -⟩)
  · exact h
  · exact nomatch h

/-- Equal characters. -/
theorem GlobInv.same (h : GlobInv pattern name ⟨c :: p, c :: n, back⟩) :
    GlobInv pattern name ⟨p, n, back⟩ := by
  refine ⟨(suffix_cons c p).trans h.p_suffix, (suffix_cons c n).trans h.n_suffix,
    h.open_iff.trans (or_congr_left literalGlob_same_iff), fun starP starN hstar => ?_⟩
  obtain ⟨hP, hN, u, rfl, rfl⟩ := h.back starP starN hstar
  exact ⟨hP, hN, u ++ [c], by rw [append_assoc]; rfl, by rw [append_assoc]; rfl⟩

/-- What an earlier star could still match, the rest of the pattern can from here on. -/
theorem GlobInv.of_open (h : GlobInv pattern name s) (hopen : s.Open) :
    ∃ m, m <:+ s.n ∧ LiteralGlob s.p m := by
  rcases hopen with hm | ⟨starP, starN, m, hstar, hm, hglob⟩
  · exact ⟨s.n, suffix_refl _, hm⟩
  · obtain ⟨-, -, u, rfl, rfl⟩ := h.back starP starN hstar
    exact hglob.of_append (hm.trans (tail_suffix _))

/-- A star in the pattern. What an earlier star could still match, this one can. -/
theorem GlobInv.star (hd : d ≠ STAR) (h : GlobInv pattern name ⟨STAR :: p, d :: n, back⟩) :
    GlobInv pattern name ⟨p, d :: n, some (STAR :: p, d :: n)⟩ := by
  have hd : deref (d :: n) ≠ STAR := hd
  refine ⟨(suffix_cons STAR p).trans h.p_suffix, h.n_suffix, ?_, ?_⟩
  · have hopen : LiteralGlob pattern name ↔ LiteralGlob (STAR :: p) (d :: n) := by
      refine h.open_iff.trans ⟨fun hopen => ?_, .inl⟩
      obtain ⟨m, hm, hglob⟩ := h.of_open hopen
      obtain ⟨m', hm', hglob'⟩ := hglob.tail
      exact .star hd (hm'.trans hm) hglob'
    rw [hopen, literalGlob_star_iff hd]
    constructor
    · rintro ⟨m, hm, hglob⟩
      rcases suffix_cons_iff.1 hm with rfl | hm
      · exact .inl hglob
      · exact .inr ⟨_, _, m, rfl, hm, hglob⟩
    · rintro (hm | ⟨starP, starN, m, hstar, hm, hglob⟩)
      · exact ⟨_, suffix_refl _, hm⟩
      · cases hstar
        exact ⟨m, hm.trans (suffix_cons d n), hglob⟩
  · rintro starP starN hstar
    cases hstar
    exact ⟨h.p_suffix, h.n_suffix, [], rfl, rfl⟩

/-- Back to the star, which takes one character more. -/
theorem GlobInv.backtrack {starP starN : List (BitVec 8)} (hstar : s.star = some (starP, starN))
    (hno : ¬ LiteralGlob s.p s.n) (h : GlobInv pattern name s) :
    GlobInv pattern name ⟨starP.tail, starN.tail, some (starP, starN.tail)⟩ := by
  obtain ⟨hP, hN, u, rfl, rfl⟩ := h.back starP starN hstar
  have hp := (tail_suffix (STAR :: (u ++ s.p))).trans hP
  have hn := (tail_suffix (u ++ s.n)).trans hN
  refine ⟨hp, hn, h.open_iff.trans ?_, ?_⟩
  · constructor
    · rintro (hm | ⟨starP, starN, m, hstar', hm, hglob⟩)
      · exact absurd hm hno
      · rw [hstar] at hstar'
        cases hstar'
        cases hrest : (u ++ s.n).tail with
        | nil =>
          rw [hrest] at hm
          rw [suffix_nil.1 hm] at hglob
          exact .inl hglob
        | cons d rest =>
          rw [hrest] at hm
          rcases suffix_cons_iff.1 hm with rfl | hm
          · exact .inl hglob
          · exact .inr ⟨_, _, m, rfl, hm, hglob⟩
    · rintro (hm | ⟨starP, starN, m, hstar', hm, hglob⟩)
      · exact .inr ⟨_, _, _, hstar, suffix_refl _, hm⟩
      · cases hstar'
        exact .inr ⟨_, _, m, hstar, hm.trans (tail_suffix _), hglob⟩
  · rintro starP starN hstar'
    cases hstar'
    exact ⟨hP, hn, [], rfl, rfl⟩

/-! ## The loop -/

/-- The length of what the star has not taken, or more than that before the first star. -/
def starLeft (name : List (BitVec 8)) : Option (List (BitVec 8) × List (BitVec 8)) → ℕ
  | none => name.length + 1
  | some (_, starN) => starN.length

/-- What every round makes smaller. -/
def globLeft (pattern name : List (BitVec 8)) (s : GlobState) : ℕ :=
  starLeft name s.star * (pattern.length + name.length + 1) + (s.p.length + s.n.length)

/-- A pattern that does not start with the first character of the name or with a star does not
match. -/
theorem not_literalGlob (hd : deref p ≠ d) (hs : deref p ≠ STAR) : ¬ LiteralGlob p (d :: n) := by
  intro h
  cases h with
  | same _ _ => exact hd rfl
  | star _ _ _ => exact hs rfl

/-- One round. -/
theorem GlobInv.step (hnz : ∀ c ∈ name, c ≠ 0) (h : GlobInv pattern name s)
    (hs : globStep s = some s') :
    GlobInv pattern name s' ∧ globLeft pattern name s' < globLeft pattern name s := by
  obtain ⟨p, n, back⟩ := s
  rw [globStep] at hs
  cases n with
  | nil => exact nomatch hs
  | cons d n =>
    have hd : d ≠ 0 := hnz d (h.n_suffix.subset mem_cons_self)
    rw [if_neg (show ¬ deref (d :: n) = 0 from hd)] at hs
    by_cases hsame : deref p = deref (d :: n)
    · rw [if_pos hsame] at hs
      cases hs
      cases p with
      | nil => exact absurd hsame.symm hd
      | cons c p =>
        obtain rfl : c = d := hsame
        refine ⟨h.same, ?_⟩
        simp only [globLeft, length_cons, tail_cons]
        omega
    rw [if_neg hsame] at hs
    by_cases hstar : deref p = STAR
    · rw [if_pos hstar] at hs
      cases hs
      cases p with
      | nil => exact absurd hstar (by decide)
      | cons c p =>
        obtain rfl : c = STAR := hstar
        refine ⟨h.star (Ne.symm hsame), ?_⟩
        have hle : (d :: n).length ≤ starLeft name back := by
          cases back with
          | none => exact h.n_suffix.length_le.trans (Nat.le_succ _)
          | some starPN =>
            obtain ⟨-, -, u, -, hN⟩ := h.back _ _ rfl
            rw [starLeft, hN, length_append]
            exact Nat.le_add_left _ _
        have hmul := Nat.mul_le_mul_right (pattern.length + name.length + 1) hle
        simp only [globLeft, starLeft, length_cons, tail_cons] at hmul ⊢
        omega
    rw [if_neg hstar] at hs
    cases back with
    | none => exact nomatch hs
    | some starPN =>
      obtain ⟨starP, starN⟩ := starPN
      cases hs
      obtain ⟨hp, hn, u, -, hN⟩ := h.back _ _ rfl
      refine ⟨h.backtrack rfl (not_literalGlob hsame hstar), ?_⟩
      -- The star has one character more, and there was one.
      obtain ⟨k, hk⟩ : ∃ k, starN.length = k + 1 := by
        rw [hN]
        exact ⟨u.length + n.length, by simp [Nat.add_assoc]⟩
      have hplen := hp.length_le
      have hnlen := hn.length_le
      simp only [globLeft, starLeft, length_tail, hk, Nat.add_sub_cancel, Nat.add_mul, Nat.one_mul]
      omega

/-- At the end of the name the rest of the pattern decides. -/
theorem GlobInv.end_of_name (h : GlobInv pattern name ⟨p, [], back⟩) :
    LiteralGlob pattern name ↔ LiteralGlob p [] := by
  refine h.open_iff.trans ⟨fun hopen => ?_, .inl⟩
  obtain ⟨m, hm, hglob⟩ := h.of_open hopen
  rwa [suffix_nil.1 hm] at hglob

/-- The last loop of the source skips the stars. -/
theorem deref_dropWhile_eq_zero (hnz : ∀ c ∈ p, c ≠ 0) :
    deref (p.dropWhile (· = STAR)) = 0 ↔ LiteralGlob p [] := by
  rw [literalGlob_empty_iff]
  induction p with
  | nil => exact ⟨fun _ c hc => absurd hc not_mem_nil, fun _ => rfl⟩
  | cons c p ih =>
    rw [forall_mem_cons] at hnz ⊢
    by_cases hc : c = STAR
    · rw [dropWhile_cons_of_pos (by simpa using hc), ih hnz.2]
      exact ⟨fun h => ⟨hc, h⟩, fun h => h.2⟩
    · rw [dropWhile_cons_of_neg (by simpa using hc)]
      exact ⟨fun h => absurd h hnz.1, fun h => absurd h.1 hc⟩

/-- Where the loop stops, what the source returns says whether the name matches. -/
theorem GlobInv.result (hpz : ∀ c ∈ pattern, c ≠ 0) (hnz : ∀ c ∈ name, c ≠ 0)
    (h : GlobInv pattern name s) (hs : globStep s = none) :
    (deref s.n = 0 ∧ deref (s.p.dropWhile (· = STAR)) = 0) ↔ LiteralGlob pattern name := by
  obtain ⟨p, n, back⟩ := s
  cases n with
  | nil =>
    rw [h.end_of_name, deref_dropWhile_eq_zero fun c hc => hpz c (h.p_suffix.subset hc)]
    exact ⟨fun h => h.2, fun h => ⟨rfl, h⟩⟩
  | cons d n =>
    have hd : deref (d :: n) ≠ 0 := hnz d (h.n_suffix.subset mem_cons_self)
    rw [globStep, if_neg hd] at hs
    -- The loop was left by `return false`: the characters differ and there is no star to come back
    -- to.
    by_cases hsame : deref p = deref (d :: n)
    · rw [if_pos hsame] at hs
      exact nomatch hs
    rw [if_neg hsame] at hs
    by_cases hstar : deref p = STAR
    · rw [if_pos hstar] at hs
      exact nomatch hs
    rw [if_neg hstar] at hs
    cases back with
    | some starPN => exact nomatch hs
    | none =>
      refine ⟨fun hr => absurd hr.1 hd, fun hm => ?_⟩
      rcases h.open_iff.1 hm with hm | ⟨_, _, _, hback, -⟩
      · exact absurd hm (not_literalGlob hsame hstar)
      · exact nomatch hback

/-- What the matcher accepts, for every pattern and name. -/
theorem cmdlineGlobMatch_iff_literalGlob (pattern name : CString) :
    cmdlineGlobMatch pattern name = true ↔ LiteralGlob pattern.bytes name.bytes := by
  have hbound : globLeft pattern.bytes name.bytes ⟨pattern.bytes, name.bytes, none⟩
      < globRounds pattern.bytes name.bytes := by
    simp only [globLeft, starLeft, globRounds, Nat.add_mul]
    omega
  obtain ⟨s, hrun, hend, hinv⟩ := exists_runLoop (P := GlobInv pattern.bytes name.bytes)
    (fun hinv hs => hinv.step name.nonzero hs) (.init _ _) hbound
  rw [cmdlineGlobMatch, hrun, ← hinv.result pattern.nonzero name.nonzero hend]
  exact decide_eq_true_iff

/-- The matcher is right about a pattern and a name, if and only if a name of the pattern's language
also matches with each star of the pattern that stands at a star of the name taking that star
alone. -/
theorem cmdlineGlobMatch_correct_iff (pattern name : CString) :
    (cmdlineGlobMatch pattern name = true ↔ Glob pattern.bytes name.bytes) ↔
      (Glob pattern.bytes name.bytes → LiteralGlob pattern.bytes name.bytes) := by
  rw [cmdlineGlobMatch_iff_literalGlob]
  exact ⟨fun h => h.2, fun h => ⟨LiteralGlob.glob, h⟩⟩

/-- The pattern `*` does not match the name `*a`. -/
theorem cmdlineGlobMatch_star_in_name :
    cmdlineGlobMatch ⟨[42], by decide⟩ ⟨[42, 97], by decide⟩ = false ∧ Glob [42] [42, 97] :=
  ⟨by decide, .star [42, 97] .nil⟩

end Bongos.Core
