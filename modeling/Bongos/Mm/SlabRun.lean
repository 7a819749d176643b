import Bongos.Mm.SlabInvariant

/-!
# Runs of the slab allocator

The calls of the slab allocator keep the invariant, whatever the memory manager answers: each loop
is followed with the moves of `SlabInvariant`. `idle` says that no slab is moving, which is so
between calls and between the rounds of every loop.
-/

namespace Bongos.Mm

open FallibleState List

open Function (update update_eq_self update_idem update_of_ne update_self)

open DyadicBlocks (InBlock)

open SlabState (setCache setRounds setSlab)

/-- No slab is moving. -/
def idle : ℕ → Option ℕ := fun _ => none

variable {s s' : SlabState} {c a : ℕ} {k : SlabListKind} {out : ℕ → List ℕ}

/-- What a call on the cache `c` leaves alone: the registry, the other caches, and the sizes of the
magazine. -/
structure SameShape (c : ℕ) (s s' : SlabState) : Prop where
  inUse_eq : s'.inUse = s.inUse
  caches_eq : ∀ c', c' ≠ c → s'.caches c' = s.caches c'
  capacity_eq : (s'.caches c).bspMag.capacity = (s.caches c).bspMag.capacity
  batch_eq : (s'.caches c).bspMag.batch = (s.caches c).bspMag.batch

theorem SameShape.refl (c : ℕ) (s : SlabState) : SameShape c s s := ⟨rfl, fun _ _ => rfl, rfl, rfl⟩

theorem SameShape.trans {s'' : SlabState} (h : SameShape c s s') (h' : SameShape c s' s'') :
    SameShape c s s'' :=
  ⟨h'.inUse_eq.trans h.inUse_eq, fun c' hc => (h'.caches_eq c' hc).trans (h.caches_eq c' hc),
    h'.capacity_eq.trans h.capacity_eq, h'.batch_eq.trans h.batch_eq⟩

theorem SameShape.inUse {d : ℕ} (h : SameShape c s s') (hd : s.inUse d = true) :
    s'.inUse d = true :=
  h.inUse_eq ▸ hd

theorem SameShape.setCache {cache : SlabCache}
    (h : cache.bspMag.capacity = (s.caches c).bspMag.capacity)
    (h' : cache.bspMag.batch = (s.caches c).bspMag.batch) : SameShape c s (s.setCache c cache) :=
  ⟨rfl, fun _ hne => update_of_ne hne .., by simpa [SlabState.setCache] using h,
    by simpa [SlabState.setCache] using h'⟩

theorem SameShape.setRounds (rounds : List ℕ) : SameShape c s (s.setRounds c rounds) :=
  SameShape.setCache rfl rfl

/-- `slabRehomeLocked` does not touch the magazine. -/
theorem slabRehomeLocked_shape (s : SlabState) (c a : ℕ) : SameShape c s (slabRehomeLocked s c a) ∧
      ((slabRehomeLocked s c a).caches c).bspMag = (s.caches c).bspMag ∧
      (slabRehomeLocked s c a).freed = s.freed := by
  unfold slabRehomeLocked
  simp only
  split_ifs
  · exact ⟨SameShape.refl c s, rfl, rfl⟩
  · have h : SameShape c s (s.setCache c (moveSlab (s.caches c) (s.slabs a).list
        (slabWant (s.slabs a)) a)) := SameShape.setCache rfl rfl
    exact ⟨⟨h.inUse_eq, h.caches_eq, h.capacity_eq, h.batch_eq⟩,
      by simp [setSlab, setCache, moveSlab], rfl⟩

/-! ## Refilling the magazine -/

variable {m : Option ℕ} {pmm : PmmAnswers} {p objSize align : ℕ} {o : List ℕ} {flags : BitVec 32}
  {ctor debug : Bool}

/-- The inner loop moves objects of the slab `a` to the magazine, at least one if there is one. -/
theorem slabTake_spec (need : ℕ) (hm : m = none ∨ m = some a)
    (hc : s.inUse c = true) (ha : a ∈ (s.caches c).lists k)
    (v : SlabInv s out (update idle c m)) {t : ℕ × SlabState} (ht : slabTake c a need s = t) :
    ∃ new, (t.2.caches c).bspMag.rounds = (s.caches c).bspMag.rounds ++ new ∧
      SlabInv t.2 (update out c (new ++ out c)) (update idle c (some a)) ∧
      a ∈ (t.2.caches c).lists k ∧ t.1 + new.length = need ∧
      (0 < need → 0 < (s.slabs a).freeCount → new ≠ []) ∧ SameShape c s t.2 ∧
      t.2.freed = s.freed := by
  induction need generalizing s out m with
  | zero =>
    subst ht
    refine ⟨[], by simp [slabTake], ?_, ha, rfl, fun h => absurd h (lt_irrefl 0),
      SameShape.refl c s, rfl⟩
    rw [nil_append, update_eq_self]
    exact v.weaken hm
  | succ need ih =>
    simp only [slabTake] at ht
    split_ifs at ht with hfree
    · have v0 := v c hc
      rw [update_self] at v0
      have v1 := v.of_setSlab hc ha (v0.pop ha hm hfree)
      rw [update_idem] at v1
      set i := (slabFreeListPop (s.slabs a)).1
      set s1 := s.setSlab a (slabFreeListPop (s.slabs a)).2 with hs1
      have hslot : slabSlot s1 a i = slotAddr (s.caches c).layout a i :=
        ((v1 c hc).slab ha).slabSlot_eq
      set p := slotAddr (s.caches c).layout a i
      rw [hslot] at ht
      set s2 := s1.setRounds c ((s1.caches c).bspMag.rounds ++ [p]) with hs2
      have v2 := v1.setMag hc { (s1.caches c).bspMag with
        rounds := (s1.caches c).bspMag.rounds ++ [p] } rfl rfl
      have hrounds : (s2.caches c).bspMag.rounds = (s.caches c).bspMag.rounds ++ [p] := by
        simp [hs2, setRounds, setCache, hs1, setSlab]
      have hlists : (s2.caches c).lists = (s.caches c).lists := by
        simp [hs2, setRounds, setCache, hs1, setSlab]
      have hshape : SameShape c s s2 :=
        (⟨rfl, fun _ _ => rfl, rfl, rfl⟩ : SameShape c s s1).trans (SameShape.setRounds _)
      obtain ⟨new, h1, h2, h3, h4, -, h6, h7⟩ :=
        ih (s := s2) (Or.inr rfl) hc (by rw [hlists]; exact ha) v2 ht
      refine ⟨p :: new, ?_, ?_, h3, ?_, fun _ _ => cons_ne_nil _ _, hshape.trans h6, h7⟩
      · rw [h1, hrounds, append_assoc, singleton_append]
      · refine h2.perm fun c' => ?_
        by_cases h : c' = c
        · subst h; simp
        · simp [h]
      · rw [length_cons]; omega
    · subst ht
      refine ⟨[], by simp, ?_, ha, rfl, fun _ h => absurd h hfree, SameShape.refl c s, rfl⟩
      rw [nil_append, update_eq_self]
      exact v.weaken hm

/-- A refill takes objects from a slab of the cache that has free ones, or from a new one. -/
theorem slabPick_cases (h : slabPick pmm s c = some (a, s')) :
    (s' = s ∧ ∃ k, (k = .onPartial ∨ k = .onEmpty) ∧ a ∈ (s.caches c).lists k) ∨
      ∃ s1, slabGrow pmm s c = some (a, s1) ∧ s' = slabAddEmpty s1 c a := by
  unfold slabPick at h
  split at h
  next hl =>
    cases h
    exact .inl ⟨rfl, _, .inl rfl, by rw [hl]; exact mem_cons_self⟩
  split at h
  next hl =>
    cases h
    exact .inl ⟨rfl, _, .inr rfl, by rw [hl]; exact mem_cons_self⟩
  split at h
  · cases h
  next hg =>
    cases h
    exact .inr ⟨_, hg, rfl⟩

/-- The slab that a refill takes objects from has a free one. -/
theorem slabPick_spec (hfresh : PmmFresh pmm) (hc : s.inUse c = true)
    (v : SlabInv s out idle) (h : slabPick pmm s c = some (a, s')) :
    SlabInv s' out idle ∧ (∃ k, a ∈ (s'.caches c).lists k) ∧ 0 < (s'.slabs a).freeCount ∧
      SameShape c s s' ∧ (s'.caches c).bspMag = (s.caches c).bspMag ∧ s'.freed = s.freed := by
  rcases slabPick_cases h with ⟨rfl, k, hk, ha⟩ | ⟨s1, hg, rfl⟩
  · refine ⟨v, ⟨_, ha⟩, ?_, SameShape.refl c _, rfl, rfl⟩
    have hwant := (v c hc).homed ha (fun e => nomatch e)
    unfold slabWant at hwant
    split_ifs at hwant with h0
    · subst hwant; simp at hk
    · omega
    · omega
  · obtain ⟨v', hmem, hfree⟩ := v.grow hc rfl hfresh hg
    refine ⟨v', ⟨_, hmem⟩, hfree, ?_⟩
    obtain ⟨pfn, -, -, rfl⟩ := slabGrow_eq_some hg
    refine ⟨⟨rfl, fun _ hne => update_of_ne hne .., ?_, ?_⟩, ?_, rfl⟩ <;>
      simp [slabAddEmpty, setSlab, setCache]

/-- `slabRefillLocked` moves at most `need` objects from the slabs to the magazine. It ends because
every round moves one, or because the memory manager has no more frames. -/
theorem slabRefillLocked_spec (hfresh : PmmFresh pmm) (need : ℕ)
    (hc : s.inUse c = true) (v : SlabInv s out idle) :
    ∃ new, ((slabRefillLocked pmm c need s).caches c).bspMag.rounds =
        (s.caches c).bspMag.rounds ++ new ∧
      SlabInv (slabRefillLocked pmm c need s) (update out c (new ++ out c)) idle ∧
      new.length ≤ need ∧ SameShape c s (slabRefillLocked pmm c need s) ∧
      (slabRefillLocked pmm c need s).freed = s.freed ∧
      (0 < need → new = [] → slabPick pmm s c = none) := by
  induction need using Nat.strong_induction_on generalizing s out with
  | _ need ih =>
  have stay : SlabInv s (update out c ([] ++ out c)) idle := by
    rwa [nil_append, update_eq_self]
  rw [slabRefillLocked]
  split_ifs with hneed
  swap
  · exact ⟨[], by simp, stay, Nat.zero_le _, SameShape.refl c s, rfl, fun h => absurd h hneed⟩
  cases hp : slabPick pmm s c with
  | none => exact ⟨[], by simp, stay, Nat.zero_le _, SameShape.refl c s, rfl, fun _ _ => rfl⟩
  | some r =>
    obtain ⟨a, s1⟩ := r
    obtain ⟨v1, ⟨k, ha⟩, hfree, sh1, hmag1, hfreed1⟩ := slabPick_spec hfresh hc v hp
    have hc1 : s1.inUse c = true := sh1.inUse hc
    have hidle : idle = update idle c none := (update_eq_self c idle).symm
    rw [hidle] at v1
    obtain ⟨new, h1, h2, h3, h4, h5, sh2, hfreed2⟩ := slabTake_spec need (Or.inl rfl) hc1 ha v1 rfl
    have hnew := h5 hneed hfree
    have hlt : (slabTake c a need s1).1 < need := by
      have := length_pos_of_ne_nil hnew
      omega
    simp only [if_pos hlt]
    generalize slabTake c a need s1 = t at *
    have hc2 : t.2.inUse c = true := sh2.inUse hc1
    have v3 := h2.rehome hc2 h3 (update_self ..)
    rw [update_idem, ← hidle] at v3
    obtain ⟨sh3, hmag3, hfreed3⟩ := slabRehomeLocked_shape t.2 c a
    obtain ⟨new', g1, g2, g3, sh4, g5, -⟩ := ih t.1 hlt
      (sh3.inUse hc2) v3
    refine ⟨new ++ new', ?_, ?_, ?_, ((sh1.trans sh2).trans sh3).trans sh4, ?_,
      fun _ h => absurd (append_eq_nil_iff.1 h).1 hnew⟩
    · rw [g1, hmag3, h1, hmag1, append_assoc]
    · refine g2.perm fun c' => ?_
      by_cases h : c' = c
      · subst h
        simp only [update_self, ← append_assoc]
        exact perm_append_comm.append_right _
      · simp [h]
    · rw [length_append]; omega
    · rw [g5, hfreed3, hfreed2, hfreed1]

/-! ## Returning objects and slabs -/

/-- `slabPushObjectLocked` returns an object of the cache to its slab. -/
theorem slabPushObjectLocked_spec (hc : s.inUse c = true)
    (v : SlabInv s (update out c (p :: o)) idle) :
    ∃ s', exec (slabPushObjectLocked c p) s = (.ok ⟨⟩, s') ∧ SlabInv s' (update out c o) idle ∧
      SameShape c s s' ∧ (s'.caches c).bspMag = (s.caches c).bspMag ∧ s'.freed = s.freed := by
  have v0 := v c hc
  rw [update_self] at v0
  obtain ⟨k, a, ha, i, hi, rfl⟩ := v0.out_slot p mem_cons_self
  have hr := v0.resolve ha hi
  have v1 := v.of_setSlab hc ha (v0.push ha hi)
  have v2 := v1.rehome hc ha (update_self ..)
  rw [update_idem, update_idem] at v2
  have hidle : update idle c none = idle := update_eq_self c idle
  rw [hidle] at v2
  obtain ⟨sh, hmag, hfreed⟩ := slabRehomeLocked_shape
    (s.setSlab a (slabFreeListPush (s.slabs a) i)) c a
  refine ⟨_, ?_, v2, ⟨sh.inUse_eq, sh.caches_eq, sh.capacity_eq, sh.batch_eq⟩, hmag, hfreed⟩
  unfold slabPushObjectLocked
  rw [exec_get_bind, hr]
  dsimp only
  rw [if_neg (not_not.2 (v0.slab ha).cache_eq)]
  rfl

/-- The loops that return several objects leave the rest of the magazine as it was. -/
theorem slabPushRounds_spec (clear : Bool) (l : List ℕ) (n : ℕ) (hc : s.inUse c = true)
    (v : SlabInv s (update out c (l ++ o)) idle) :
    ∃ s', exec (slabPushRounds c clear n l) s = (.ok ⟨⟩, s') ∧ SlabInv s' (update out c o) idle ∧
      SameShape c s s' ∧ (s'.caches c).bspMag.rounds.drop (n + l.length) =
        (s.caches c).bspMag.rounds.drop (n + l.length) ∧ s'.freed = s.freed := by
  induction l generalizing s n with
  | nil => exact ⟨s, rfl, v, SameShape.refl c s, rfl, rfl⟩
  | cons p l ih =>
    obtain ⟨s1, h1, v1, sh1, hmag1, hfreed1⟩ := slabPushObjectLocked_spec hc v
    have hc1 : s1.inUse c = true := sh1.inUse hc
    -- Clearing the entry changes nothing else.
    obtain ⟨t, rfl, vt, sht, hdrop, hfreed⟩ :
        ∃ t, t = (if clear then s1.setRounds c ((s1.caches c).bspMag.rounds.set n 0) else s1) ∧
          SlabInv t (update out c (l ++ o)) idle ∧ SameShape c s1 t ∧
          (t.caches c).bspMag.rounds.drop (n + 1) = (s1.caches c).bspMag.rounds.drop (n + 1) ∧
          t.freed = s1.freed := by
      cases clear with
      | false => exact ⟨s1, rfl, v1, SameShape.refl c s1, rfl, rfl⟩
      | true =>
        refine ⟨_, rfl, v1.setMag hc1 { (s1.caches c).bspMag with
          rounds := (s1.caches c).bspMag.rounds.set n 0 } rfl rfl, SameShape.setRounds _, ?_, rfl⟩
        simp [setRounds, setCache, drop_set_of_lt]
    obtain ⟨s2, h2, v2, sh2, hdrop2, hfreed2⟩ := ih (n + 1) (sht.inUse hc1) vt
    refine ⟨s2, ?_, v2, (sh1.trans sht).trans sh2, ?_, hfreed2.trans (hfreed.trans hfreed1)⟩
    · rw [slabPushRounds, exec_bind_of_ok h1, exec_modify_bind]
      exact h2
    · have hlen : n + (p :: l).length = n + 1 + l.length := by rw [length_cons]; omega
      rw [hlen, hdrop2, ← drop_drop, hdrop, drop_drop, hmag1]

/-- The slabs that a call returned to the memory manager hold no object that is out. -/
def ReleasedClean (s s' : SlabState) (out : ℕ → List ℕ) : Prop :=
  ∃ new, s'.freed = new ++ s.freed ∧
    ∀ b ∈ new, ∀ c, s.inUse c = true → ∀ p ∈ out c, ¬ InFrames b p

/-- `slabReclaimEmptyLocked` returns empty slabs only. -/
theorem slabReclaimEmptyLocked_spec (keep : ℕ) (hc : s.inUse c = true) (v : SlabInv s out idle) :
    SlabInv (slabReclaimEmptyLocked s c keep) out idle ∧
      SameShape c s (slabReclaimEmptyLocked s c keep) ∧
      ((slabReclaimEmptyLocked s c keep).caches c).bspMag = (s.caches c).bspMag ∧
      ReleasedClean s (slabReclaimEmptyLocked s c keep) out := by
  fun_induction slabReclaimEmptyLocked s c keep with
  | case1 s hgt hnil => exact ⟨v, SameShape.refl c s, rfl, [], rfl, by simp⟩
  | case2 s hgt a rest hl s1 ih =>
    obtain ⟨v', b, hfreed, hclean⟩ := v.release hc rfl hl rfl
    have sh1 : SameShape c s (slabReleaseToPmm s1 a) :=
      ⟨rfl, fun _ hne => update_of_ne hne .., by
        simp [s1, slabReleaseToPmm, setSlab, setCache], by
        simp [s1, slabReleaseToPmm, setSlab, setCache]⟩
    obtain ⟨g1, g2, g3, new, g4, g5⟩ := ih hc v'
    refine ⟨g1, sh1.trans g2, ?_, new ++ [b], ?_, ?_⟩
    · rw [g3]
      simp [s1, slabReleaseToPmm, setSlab, setCache]
    · rw [g4, hfreed, append_assoc, singleton_append]
    · intro b' hb'
      rcases mem_append.1 hb' with h | h
      · exact g5 b' h
      · rw [mem_singleton.1 h]; exact hclean
  | case3 s hle => exact ⟨v, SameShape.refl c s, rfl, [], rfl, by simp⟩

/-! ## The calls -/

/-- The allocator, and the objects of each cache that callers hold. -/
structure SlabWorld where
  st : SlabState
  held : ℕ → List ℕ

/-- The objects of a cache that are on no free list. -/
def SlabWorld.outside (w : SlabWorld) (c : ℕ) : List ℕ := (w.st.caches c).bspMag.rounds ++ w.held c

/-- The invariant between calls. -/
structure SlabWorldInv (w : SlabWorld) : Prop where
  inv : SlabInv w.st w.outside idle
  rounds_le : ∀ c, w.st.inUse c = true →
    (w.st.caches c).bspMag.rounds.length ≤ (w.st.caches c).bspMag.capacity
  inUse_lt : ∀ c, w.st.inUse c = true → c < SLAB_MAX_CACHES
  held_nil : ∀ c, w.st.inUse c = false → w.held c = []

/-- The slabs that a step returned to the memory manager hold nothing that a caller held before or
holds after it, or that is cached after it. -/
def CleanStep (w w' : SlabWorld) : Prop :=
  ∃ new, w'.st.freed = new ++ w.st.freed ∧ ∀ b ∈ new, ∀ c, w.st.inUse c = true → ∀ p,
    p ∈ w'.outside c ∨ p ∈ w.held c → ¬ InFrames b p

variable {held held' : ℕ → List ℕ}

/-- A call on the cache `c` is clean if the slabs that it returns hold nothing that is out
afterwards, and that counts what callers held before. -/
theorem ReleasedClean.cleanStep {t : SlabState}
    (h : ReleasedClean s t (update (SlabWorld.outside ⟨s, held⟩) c o)) (sh : SameShape c s s')
    (hfreed : s'.freed = t.freed) (hheld : ∀ c', c' ≠ c → held' c' = held c')
    (hout : ∀ p, p ∈ SlabWorld.outside ⟨s', held'⟩ c ∨ p ∈ held c → p ∈ o) :
    CleanStep ⟨s, held⟩ ⟨s', held'⟩ := by
  obtain ⟨new, hnew, hclean⟩ := h
  refine ⟨new, hfreed.trans hnew, fun b hb c' hc' p hp => hclean b hb c' hc' p ?_⟩
  by_cases h : c' = c
  · subst h
    rw [update_self]
    exact hout p hp
  · rw [update_of_ne h]
    rcases hp with hp | hp
    · simpa [SlabWorld.outside, sh.caches_eq c' h, hheld c' h] using hp
    · exact mem_append_right _ hp

theorem inUse_of_live (h : ¬ (!slabCacheIsLiveLocked s c) = true) : s.inUse c = true := by
  simp only [slabCacheIsLiveLocked, Bool.not_eq_true', Bool.not_eq_false, Bool.and_eq_true] at h
  exact h.1.2

section

variable (w : SlabWorldInv ⟨s, held⟩) (hc : s.inUse c = true)

include w hc

/-- A call on the cache `c` that keeps its shape, by what it does to that cache. -/
theorem SlabWorldInv.of_call (sh : SameShape c s s') {held1 out1 : List ℕ}
    (v : SlabInv s' (update out c out1) idle)
    (hout : ∀ c', c' ≠ c → out c' = (s.caches c').bspMag.rounds ++ held c')
    (hout1 : out1.Perm ((s'.caches c).bspMag.rounds ++ held1))
    (hle : (s'.caches c).bspMag.rounds.length ≤ (s'.caches c).bspMag.capacity) :
    SlabWorldInv ⟨s', update held c held1⟩ := by
  refine ⟨v.perm fun c' => ?_, fun c' hc' => ?_, fun c' hc' => ?_, fun c' hc' => ?_⟩
  · by_cases h : c' = c
    · subst h; simpa [SlabWorld.outside] using hout1
    · simp [SlabWorld.outside, h, sh.caches_eq c' h, hout c' h]
  · by_cases h : c' = c
    · subst h; exact hle
    · simp only [sh.caches_eq c' h]
      exact w.rounds_le c' (by simpa [sh.inUse_eq] using hc')
  · exact w.inUse_lt c' (by simpa [sh.inUse_eq] using hc')
  · have hfalse : s.inUse c' = false := by simpa [sh.inUse_eq] using hc'
    have h : c' ≠ c := by rintro rfl; rw [hc] at hfalse; cases hfalse
    simpa [h] using w.held_nil c' hfalse

/-- The magazine after a refill, if it was empty: a refill happens only into an empty magazine, so
it cannot overflow it. -/
theorem slabTopUp_spec (hfresh : PmmFresh pmm) :
    ∃ out1, SlabInv (slabTopUp pmm s c)
        (update (SlabWorld.outside ⟨s, held⟩) c out1) idle ∧
      out1.Perm (((slabTopUp pmm s c).caches c).bspMag.rounds ++ held c) ∧
      ((slabTopUp pmm s c).caches c).bspMag.rounds.length ≤
        ((slabTopUp pmm s c).caches c).bspMag.capacity ∧
      SameShape c s (slabTopUp pmm s c) ∧ (slabTopUp pmm s c).freed = s.freed ∧
      (((slabTopUp pmm s c).caches c).bspMag.rounds = [] → slabPick pmm s c = none) := by
  have hcap := (w.inv c hc).capacity_ge
  have hbatch := (w.inv c hc).batch_eq
  simp only at hcap hbatch
  unfold slabTopUp
  split_ifs with hempty
  · obtain ⟨new, g1, g2, g3, g4, g5, g6⟩ :=
      slabRefillLocked_spec hfresh (s.caches c).bspMag.batch hc w.inv
    refine ⟨_, g2, ?_, ?_, g4, g5, fun h => g6 (by omega) ?_⟩
    · rw [g1, SlabWorld.outside, ← append_assoc]
      exact perm_append_comm.append_right _
    · rw [g1, g4.capacity_eq, length_append, hempty]
      omega
    · rw [g1] at h
      exact (append_eq_nil_iff.1 h).2
  · refine ⟨SlabWorld.outside ⟨s, held⟩ c, ?_, Perm.refl _, w.rounds_le c hc,
      SameShape.refl c s, rfl, fun h => absurd (by rw [h]; rfl) hempty⟩
    rw [update_eq_self]
    exact w.inv

/-- A flush returns some rounds of the magazine to their slabs, and then empty slabs to the memory
manager. -/
theorem slabFlush_spec (keep : ℕ) (clear : Bool) {l rest : List ℕ}
    (hsplit : (s.caches c).bspMag.rounds = l ++ rest) :
    ∃ s1 t, exec (slabPushRounds c clear 0 l) s = (.ok ⟨⟩, s1) ∧
      (s1.caches c).bspMag.rounds.drop l.length = rest ∧
      SlabInv (s1.setRounds c rest) (update (SlabWorld.outside ⟨s, held⟩) c (rest ++ held c)) idle ∧
      t = slabReclaimEmptyLocked (s1.setRounds c rest) c keep ∧ (t.caches c).bspMag.rounds = rest ∧
      SlabInv t (update (SlabWorld.outside ⟨s, held⟩) c (rest ++ held c)) idle ∧ SameShape c s t ∧
      ReleasedClean s t (update (SlabWorld.outside ⟨s, held⟩) c (rest ++ held c)) := by
  have v : SlabInv s (update (SlabWorld.outside ⟨s, held⟩) c (l ++ (rest ++ held c))) idle := by
    have hout : l ++ (rest ++ held c) = SlabWorld.outside ⟨s, held⟩ c := by
      rw [← append_assoc, ← hsplit]
      rfl
    rw [hout, update_eq_self]
    exact w.inv
  obtain ⟨s1, h1, v1, sh1, hdrop, hfreed1⟩ := slabPushRounds_spec clear l 0 hc v
  rw [Nat.zero_add, hsplit, drop_left] at hdrop
  have hc1 : s1.inUse c = true := sh1.inUse hc
  have v2 := v1.setMag hc1 { (s1.caches c).bspMag with rounds := rest } rfl rfl
  have sh2 : SameShape c s1 (s1.setRounds c rest) := SameShape.setRounds _
  obtain ⟨v3, sh3, hmag3, new, hfreed3, hclean⟩ :=
    slabReclaimEmptyLocked_spec (s := s1.setRounds c rest) keep hc1 v2
  refine ⟨s1, _, h1, hdrop, v2, rfl, ?_, v3, (sh1.trans sh2).trans sh3, new, ?_,
    fun b hb c' hc' => ?_⟩
  · rw [hmag3]
    simp [setRounds, setCache]
  · rw [hfreed3, ← hfreed1]; rfl
  · exact hclean b hb c' ((sh1.trans sh2).inUse hc')

/-- The flush of a full magazine leaves room for one object. -/
theorem slabMakeRoom_spec : ∃ t, exec (slabMakeRoom c) s = (.ok ⟨⟩, t) ∧
      SlabInv t (update (SlabWorld.outside ⟨s, held⟩) c
        ((t.caches c).bspMag.rounds ++ held c)) idle ∧
      (t.caches c).bspMag.rounds.length < (t.caches c).bspMag.capacity ∧
      SameShape c s t ∧ ReleasedClean s t (update (SlabWorld.outside ⟨s, held⟩) c
        ((t.caches c).bspMag.rounds ++ held c)) := by
  have hbatch := (w.inv c hc).batch_eq
  have hcap := (w.inv c hc).capacity_ge
  have hle := w.rounds_le c hc
  unfold slabMakeRoom
  rw [exec_get_bind]
  simp only at hbatch hcap hle ⊢
  split_ifs with hfull
  · obtain ⟨s1, t, h1, hdrop, -, rfl, hrounds, v, sh, hclean⟩ :=
      slabFlush_spec w hc SLAB_EMPTY_KEEP true
        (take_append_drop (s.caches c).bspMag.batch (s.caches c).bspMag.rounds).symm
    rw [length_take_of_le (by omega)] at hdrop
    refine ⟨_, by rw [exec_bind_of_ok h1, exec_modify_bind, hdrop]; rfl, ?_, ?_, sh, ?_⟩
    · rw [hrounds]; exact v
    · rw [hrounds, sh.capacity_eq, length_drop]
      omega
    · rw [hrounds]; exact hclean
  · refine ⟨s, rfl, ?_, not_le.1 hfull, SameShape.refl c s, [], rfl, by simp⟩
    have : (s.caches c).bspMag.rounds ++ held c = SlabWorld.outside ⟨s, held⟩ c := rfl
    rw [this, update_eq_self]
    exact w.inv

theorem SlabWorldInv.live : slabCacheIsLiveLocked s c = true := by
  have hlt := w.inUse_lt _ hc
  have hmagic : (s.caches c).magic = SLAB_CACHE_MAGIC := (w.inv _ hc).magic_eq
  simp [slabCacheIsLiveLocked, hc, hlt, hmagic]

/-- An allocation without flags from a cache in use reports no bug. -/
theorem slabAlloc_returns (ans : PmmAnswers) :
    ∃ r s', slabAlloc ans s c 0 = .ok (r, s') := by
  have hflags : (0 : BitVec 32) &&& ~~~KMALLOC_FLAGS_VALID = 0 ∧
      (0 : BitVec 32) &&& KMALLOC_ZERO = 0 := by decide
  unfold slabAlloc
  simp only [hflags.1, hflags.2, w.live hc, ne_eq, not_true_eq_false, if_false, false_and,
    Bool.not_true, Bool.false_eq_true]
  split <;> exact ⟨_, _, rfl⟩

/-- A call that takes the object `p` of the cache `c` from a caller. -/
def TookBack (s : SlabState) (held : ℕ → List ℕ) (c p : ℕ) (s' : SlabState) : Prop :=
  SlabWorldInv ⟨s', update held c ((held c).erase p)⟩ ∧
    CleanStep ⟨s, held⟩ ⟨s', update held c ((held c).erase p)⟩

/-- `slabFreeCommon` takes an object from a caller. -/
theorem slabFreeCommon_spec {i : ℕ} (hp : p ∈ held c) (ha : a ∈ (s.caches c).lists k)
    (hi : i < (s.caches c).layout.objsPerSlab) (hslot : p = slotAddr (s.caches c).layout a i) :
    ∃ s', exec (slabFreeCommon c a i p) s = (.ok ⟨⟩, s') ∧ TookBack s held c p s' := by
  have v0 := w.inv c hc
  have hout : p ∈ SlabWorld.outside ⟨s, held⟩ c := mem_append_right _ hp
  have o := v0.slab ha
  -- The object is out, so it is marked busy; it is a caller's, so it is not in the magazine.
  have hbusy : (s.slabs a).bufctl i = SLAB_BUFCTL_BUSY :=
    o.free.marked i (by rw [o.objCount_eq]; exact hi) (hslot ▸ hout)
  have hmag : p ∉ (s.caches c).bspMag.rounds := fun h =>
    (disjoint_of_nodup_append v0.out_nodup) h hp
  obtain ⟨t, ht, v, hlt, sh, hclean⟩ := slabMakeRoom_spec w hc
  have hct : t.inUse c = true := sh.inUse hc
  have v' := v.setMag hct { (t.caches c).bspMag with
    rounds := (t.caches c).bspMag.rounds ++ [p]
    allocated := (t.caches c).bspMag.allocated - 1 } rfl rfl
  have hperm : ((t.caches c).bspMag.rounds ++ held c).Perm
      ((t.caches c).bspMag.rounds ++ [p] ++ (held c).erase p) := by
    rw [append_assoc]
    exact (perm_cons_erase hp).append_left _
  refine ⟨_, ?_, w.of_call hc ?_ v' (fun _ _ => rfl) ?_ ?_,
    hclean.cleanStep ?_ rfl (fun _ h => update_of_ne h ..) ?_⟩
  · unfold slabFreeCommon
    rw [exec_get_bind, if_neg (by simp [hbusy, hmag]), exec_bind_of_ok ht]
    rfl
  · exact sh.trans (SameShape.setCache rfl rfl)
  · simpa [setCache] using hperm
  · simp only [setCache, update_self, length_append, length_singleton]
    omega
  · exact sh.trans (SameShape.setCache rfl rfl)
  · rintro q (hq | hq)
    · refine hperm.mem_iff.2 ?_
      simpa [SlabWorld.outside, setCache] using hq
    · exact mem_append_right _ hq

/-- `slabCacheShrink` empties the magazine and returns the empty slabs. -/
theorem slabCacheShrink_spec :
    ∃ s', exec (slabCacheShrink c) s = (.ok ⟨⟩, s') ∧ SlabWorldInv ⟨s', held⟩ ∧ SameShape c s s' ∧
      (s'.caches c).bspMag.rounds = [] ∧ CleanStep ⟨s, held⟩ ⟨s', held⟩ := by
  obtain ⟨s1, t, h1, -, -, rfl, hrounds, v, sh, hclean⟩ :=
    slabFlush_spec w hc 0 false (append_nil _).symm
  refine ⟨_, ?_, ?_, sh, hrounds, hclean.cleanStep sh rfl (fun _ _ => rfl) fun p hp => ?_⟩
  · have hflush : exec (slabCacheFlushMagazineLocked c) s = (.ok ⟨⟩, s1.setRounds c []) :=
      (exec_bind_of_ok h1).trans rfl
    exact (exec_bind_of_ok hflush).trans rfl
  · have :=
      w.of_call hc sh v (fun _ _ => rfl) (by rw [hrounds]) (by rw [hrounds]; exact Nat.zero_le _)
    rwa [update_eq_self] at this
  · simpa [SlabWorld.outside, hrounds] using hp

omit hc

/-- `slabAlloc` hands an object from the magazine to the caller. It has none only if no slab has a
free object and the memory manager returned no frames. -/
theorem slabAlloc_spec (hfresh : PmmFresh pmm) {r : Option ℕ}
    (h : slabAlloc pmm s c flags = .ok (r, s')) :
    s.inUse c = true ∧ s'.freed = s.freed ∧
      SlabWorldInv ⟨s', update held c (r.toList ++ held c)⟩ ∧
      (r = none → slabPick pmm s c = none) := by
  unfold slabAlloc at h
  split_ifs at h with h1 h2 hlive
  have hc := inUse_of_live hlive
  obtain ⟨out1, v, hperm, hle, sh, hfreed, hnone⟩ := slabTopUp_spec w hc hfresh
  generalize slabTopUp pmm s c = t at *
  refine ⟨hc, ?_⟩
  simp only at h
  split at h
  next hlast =>
    cases h
    exact ⟨hfreed, w.of_call hc sh v (fun _ _ => rfl) (by simpa using hperm) hle,
      fun _ => hnone (getLast?_eq_none_iff.1 hlast)⟩
  next obj hsome =>
    cases h
    obtain ⟨init, hinit⟩ := getLast?_eq_some_iff.1 hsome
    have hct : t.inUse c = true := sh.inUse hc
    have v' := v.setMag hct { (t.caches c).bspMag with
      rounds := (t.caches c).bspMag.rounds.dropLast
      allocated := (t.caches c).bspMag.allocated + 1 } rfl rfl
    refine ⟨hfreed, w.of_call hc ?_ v' (fun _ _ => rfl) ?_ ?_, fun h => nomatch h⟩
    · exact sh.trans (SameShape.setCache rfl rfl)
    · refine hperm.trans ?_
      rw [hinit]
      simp [setCache]
    · rw [hinit, length_append] at hle
      simp only [setCache, update_self, hinit, dropLast_concat]
      omega

/-- An object that a caller holds is a slot of a slab of its cache. -/
theorem SlabWorldInv.held_slot (hp : p ∈ held c) :
    s.inUse c = true ∧ ∃ k, ∃ a ∈ (s.caches c).lists k, ∃ i < (s.caches c).layout.objsPerSlab,
      p = slotAddr (s.caches c).layout a i ∧ slabResolvePointer s p = .ok (a, i) ∧
      (s.slabs a).cache = c ∧ p ≠ 0 := by
  have hc : s.inUse c = true := by
    by_contra h
    have hnil := w.held_nil c (by simpa using h)
    simp only at hnil
    rw [hnil] at hp
    exact not_mem_nil hp
  obtain ⟨k, a, ha, i, hi, hslot⟩ := (w.inv c hc).out_slot p (mem_append_right _ hp)
  refine ⟨hc, k, a, ha, i, hi, hslot, ?_, ((w.inv c hc).slab ha).cache_eq, ?_⟩
  · rw [hslot]; exact (w.inv c hc).resolve ha hi
  · obtain ⟨phys, haddr, -⟩ := ((w.inv c hc).slab ha).slot_frame (w.inv c hc).layout hi
    rw [hslot, haddr, BOOTINFO_HHDM_BASE]
    omega

/-- **A correct free never reports a bug**: `slabFree` of an object that a caller holds returns. -/
theorem slabFree_spec (hp : p ∈ held c) : ∃ s', exec (slabFree c p) s = (.ok ⟨⟩, s') ∧
    TookBack s held c p s' := by
  obtain ⟨hc, k, a, ha, i, hi, hslot, hr, hcache, hne⟩ := w.held_slot hp
  obtain ⟨s', h, hrest⟩ := slabFreeCommon_spec w hc hp ha hi hslot
  refine ⟨s', ?_, hrest⟩
  unfold slabFree
  rw [exec_get_bind, if_neg hne, hr]
  dsimp only
  rw [if_neg (not_not.2 hcache), h]

/-- `kfree` of an object that a caller holds returns when the object's cache is one of the
`kmalloc` caches, and reports the wrong cache otherwise. -/
theorem kfree_spec (hp : p ∈ held c) :
    if (s.caches c).flags &&& SLAB_CACHE_KMALLOC = 0 then
      exec (kfree p) s = (.error (.wrongCache, p), s)
    else ∃ s', exec (kfree p) s = (.ok ⟨⟩, s') ∧ TookBack s held c p s' := by
  obtain ⟨hc, k, a, ha, i, hi, hslot, hr, hcache, hne⟩ := w.held_slot hp
  obtain ⟨s', h, hrest⟩ := slabFreeCommon_spec w hc hp ha hi hslot
  unfold kfree
  rw [exec_get_bind, if_neg hne, hr]
  dsimp only
  rw [hcache]
  split_ifs
  · rfl
  · exact ⟨s', h, hrest⟩

end

/-- The loop of `slabShrinkAll` over some of the slots. -/
theorem slabShrinkList_spec (l : List ℕ) (w : SlabWorldInv ⟨s, held⟩) :
    ∃ s', exec (l.forM slabShrinkSlot) s = (.ok ⟨⟩, s') ∧
      SlabWorldInv ⟨s', held⟩ ∧ s'.inUse = s.inUse ∧
      (∀ c, (s'.caches c).bspMag.rounds ⊆ (s.caches c).bspMag.rounds) ∧
      CleanStep ⟨s, held⟩ ⟨s', held⟩ := by
  induction l generalizing s with
  | nil => exact ⟨s, rfl, w, rfl, fun _ => List.Subset.refl _, [], rfl, by simp⟩
  | cons c l ih =>
    by_cases hc : s.inUse c = true
    · obtain ⟨s1, h1, w1, sh1, hnil, new1, hf1, hclean1⟩ := slabCacheShrink_spec w hc
      obtain ⟨s2, h2, w2, hin2, hsub2, new2, hf2, hclean2⟩ := ih w1
      have hsub1 : ∀ c', (s1.caches c').bspMag.rounds ⊆ (s.caches c').bspMag.rounds := by
        intro c'
        by_cases h : c' = c
        · subst h; rw [hnil]; exact nil_subset _
        · rw [sh1.caches_eq c' h]; exact List.Subset.refl _
      have hround : exec (slabShrinkSlot c) s = (.ok ⟨⟩, s1) := by
        rw [slabShrinkSlot, exec_get_bind, if_pos hc, h1]
      refine ⟨s2, (exec_bind_of_ok hround).trans h2, w2, hin2.trans sh1.inUse_eq,
        fun c' => List.Subset.trans (hsub2 c') (hsub1 c'), new2 ++ new1, ?_, ?_⟩
      · rw [hf2, hf1, append_assoc]
      · intro b hb c' hc' p hp
        rcases mem_append.1 hb with hb | hb
        · exact hclean2 b hb c' (by simpa [sh1.inUse_eq] using hc') p hp
        · -- What is cached or held at the end was cached or held when the slab was returned.
          refine hclean1 b hb c' hc' p (hp.imp_left fun hp => ?_)
          simp only [SlabWorld.outside, mem_append] at hp ⊢
          exact hp.imp_left fun h => hsub2 c' h
    · have hround : exec (slabShrinkSlot c) s = (.ok ⟨⟩, s) := by
        rw [slabShrinkSlot, exec_get_bind, if_neg hc]
        rfl
      obtain ⟨s2, h2, hrest⟩ := ih w
      exact ⟨s2, (exec_bind_of_ok hround).trans h2, hrest⟩

/-- The magazine of a new cache holds at least 4 and at most 32 objects. -/
theorem magazineCapacity_bounds (layout : SlabLayout) :
    4 ≤ magazineCapacity layout ∧ magazineCapacity layout ≤ SLAB_MAG_MAX_ROUNDS := by
  unfold magazineCapacity SLAB_MAG_MAX_ROUNDS
  simp only
  split_ifs <;> omega

/-- A new cache satisfies the invariant. -/
theorem newCache_inv
    (hpos : objSize ≠ 0) (hsize : objSize ≤ KMALLOC_MAX_SIZE) (hlo : 8 ≤ align) (hhi : align ≤ 4096)
    (hpow : align &&& (align - 1) = 0)
    (hcache : s.caches c = newCache objSize align ctor flags debug) :
    CacheInv s c [] none := by
  obtain ⟨k, rfl⟩ : align.isPowerOfTwo :=
    (Nat.and_sub_one_eq_zero_iff_isPowerOfTwo (by omega)).1 hpow
  have hk : k ≤ 12 := (Nat.pow_le_pow_iff_right (by decide : 1 < 2)).1 (by simpa using hhi)
  obtain ⟨layout, hl, hok⟩ := slabComputeLayout_spec debug (Nat.pos_of_ne_zero hpos) hsize hk
  have hlay : (s.caches c).layout = layout := by rw [hcache, newCache, hl]; rfl
  have hlists : ∀ k, (s.caches c).lists k = [] := fun k => by rw [hcache]; rfl
  have hnone : ∀ {k a}, a ∉ (s.caches c).lists k := fun {k a} => by rw [hlists]; exact not_mem_nil
  obtain ⟨hcap, hcap'⟩ := magazineCapacity_bounds
    ((slabComputeLayout objSize (2^k) debug).getD ⟨0, 0, 0, 0, 0⟩)
  refine ⟨hlay ▸ hok.toLayoutOk, by rw [hcache]; rfl, hlists _,
    fun k => by rw [hlists]; exact nodup_nil, fun ha => (hnone ha).elim, fun ha => (hnone ha).elim,
    fun ha => (hnone ha).elim, fun p hp => (not_mem_nil hp).elim, nodup_nil, ?_, ?_, ?_, ?_⟩
  · rw [hcache]; exact ⟨rfl, rfl⟩
  · rw [hcache]; exact hcap
  · rw [hcache]; exact hcap'
  · rw [hcache]; rfl

/-- A cache is created in a free slot, with a size and an alignment that pass the checks. -/
theorem slabCacheCreate_eq_ok
    (h : slabCacheCreateInternal s objSize align ctor flags debug = .ok (c, s')) :
    ∃ al, (objSize ≠ 0 ∧ objSize ≤ KMALLOC_MAX_SIZE) ∧
      (8 ≤ al ∧ al ≤ 4096 ∧ al &&& (al - 1) = 0) ∧ c < SLAB_MAX_CACHES ∧ s.inUse c = false ∧
      s' = { s.setCache c (newCache objSize al ctor flags debug) with
        inUse := update s.inUse c true } := by
  unfold slabCacheCreateInternal at h
  simp only at h
  generalize (if align = 0 then KMALLOC_MIN_ALIGN else align) = al at h
  split_ifs at h with h1 h2
  split at h
  · cases h
  next hfind =>
    cases h
    rw [not_or, not_lt] at h1
    rw [not_or, not_or, not_lt, not_lt, not_not] at h2
    exact ⟨al, h1, h2, mem_range.1 (mem_of_find?_eq_some hfind), by simpa using find?_some hfind,
      rfl⟩

/-- A change of the registry at the cache `c`, of which callers hold nothing. -/
theorem SlabWorldInv.of_registry (w : SlabWorldInv ⟨s, held⟩) {cache : SlabCache} {use : Bool}
    (hheld : held c = []) (hnew : use = true → c < SLAB_MAX_CACHES ∧ cache.bspMag.rounds = [] ∧
      ∀ t : SlabState, t.caches c = cache → CacheInv t c [] none) :
    SlabWorldInv ⟨{ s.setCache c cache with inUse := update s.inUse c use }, held⟩ := by
  set t : SlabState := { s.setCache c cache with inUse := update s.inUse c use }
  have hself : t.caches c = cache := update_self ..
  have hcaches : ∀ {c'}, c' ≠ c → t.caches c' = s.caches c' := fun hne => update_of_ne hne ..
  have hinUse : ∀ {c'}, c' ≠ c → t.inUse c' = s.inUse c' := fun hne => update_of_ne hne ..
  have huse : t.inUse c = use := update_self ..
  refine ⟨fun c' hc' => ?_, fun c' hc' => ?_, fun c' hc' => ?_, fun c' hc' => ?_⟩
  all_goals by_cases hne : c' = c
  · subst hne
    obtain ⟨-, hrounds, hinv⟩ := hnew (huse.symm.trans hc')
    simp only [SlabWorld.outside, hself, hrounds, hheld]
    exact hinv t hself
  · simp only [SlabWorld.outside, hcaches hne]
    exact (w.inv c' (hinUse hne ▸ hc')).frame (hcaches hne) rfl rfl rfl (fun _ => rfl)
      fun _ _ _ _ _ => rfl
  · subst hne
    obtain ⟨-, hrounds, -⟩ := hnew (huse.symm.trans hc')
    simp [hself, hrounds]
  · simp only [hcaches hne]
    exact w.rounds_le c' (hinUse hne ▸ hc')
  · subst hne
    exact (hnew (huse.symm.trans hc')).1
  · exact w.inUse_lt c' (hinUse hne ▸ hc')
  · rw [hne]
    exact hheld
  · exact w.held_nil c' (hinUse hne ▸ hc')

/-- `slabCacheCreate` adds an empty cache in a free slot. -/
theorem slabCacheCreate_spec (w : SlabWorldInv ⟨s, held⟩)
    (h : slabCacheCreateInternal s objSize align ctor flags debug = .ok (c, s')) :
    SlabWorldInv ⟨s', held⟩ ∧ s'.freed = s.freed ∧ s.inUse c = false ∧ s'.inUse c = true := by
  obtain ⟨al, h1, h2, hlt, hnot, rfl⟩ := slabCacheCreate_eq_ok h
  refine ⟨w.of_registry (w.held_nil c hnot) fun _ => ⟨hlt, rfl, fun t ht => ?_⟩, rfl, hnot,
    update_self ..⟩
  exact newCache_inv h1.1 h1.2 h2.1 h2.2.1 h2.2.2 ht

/-! ## Runs -/

/-- One call. The memory manager may answer each request with any fresh block or none; objects are
freed by callers that hold them. -/
inductive SlabStep : SlabWorld → SlabWorld → Prop
  | create {s s' : SlabState} {held : ℕ → List ℕ} {c objSize align : ℕ} {ctor debug : Bool}
      {flags : BitVec 32}
      (h : slabCacheCreateInternal s objSize align ctor flags debug = .ok (c, s')) :
      SlabStep ⟨s, held⟩ ⟨s', held⟩
  | alloc {s s' : SlabState} {held : ℕ → List ℕ} {c : ℕ} {flags : BitVec 32} {pmm : PmmAnswers}
      {r : Option ℕ} (hfresh : PmmFresh pmm) (h : slabAlloc pmm s c flags = .ok (r, s')) :
      SlabStep ⟨s, held⟩ ⟨s', update held c (r.toList ++ held c)⟩
  | free {s s' : SlabState} {held : ℕ → List ℕ} {c p : ℕ} (hp : p ∈ held c)
      (h : exec (slabFree c p) s = (.ok ⟨⟩, s')) :
      SlabStep ⟨s, held⟩ ⟨s', update held c ((held c).erase p)⟩
  | kfree {s s' : SlabState} {held : ℕ → List ℕ} {c p : ℕ} (hp : p ∈ held c)
      (h : exec (kfree p) s = (.ok ⟨⟩, s')) :
      SlabStep ⟨s, held⟩ ⟨s', update held c ((held c).erase p)⟩
  | shrink {s s' : SlabState} {held : ℕ → List ℕ} {c : ℕ} (hc : s.inUse c = true)
      (h : exec (slabCacheShrink c) s = (.ok ⟨⟩, s')) : SlabStep ⟨s, held⟩ ⟨s', held⟩
  | shrinkAll {s s' : SlabState} {held : ℕ → List ℕ} (h : exec slabShrinkAll s = (.ok ⟨⟩, s')) :
      SlabStep ⟨s, held⟩ ⟨s', held⟩

/-- No cache has been created. The memory that slabs will be carved from holds anything. -/
def SlabWorld.init (slabs : ℕ → Slab) (pages : PageArray) (spans : List PmmSpan)
    (caches : ℕ → SlabCache) : SlabWorld :=
  ⟨⟨caches, fun _ => false, slabs, pages, spans, []⟩, fun _ => []⟩

theorem SlabWorldInv.init (slabs : ℕ → Slab) (pages : PageArray) (spans : List PmmSpan)
    (caches : ℕ → SlabCache) : SlabWorldInv (.init slabs pages spans caches) :=
  ⟨fun _ h => (Bool.false_ne_true h).elim, fun _ h => (Bool.false_ne_true h).elim,
    fun _ h => (Bool.false_ne_true h).elim, fun _ _ => rfl⟩

/-- Every call keeps the invariant and returns clean slabs only. -/
theorem SlabWorldInv.step {w w' : SlabWorld} (i : SlabWorldInv w) (h : SlabStep w w') :
    SlabWorldInv w' ∧ CleanStep w w' := by
  cases h with
  | create h =>
    obtain ⟨i', hfreed, -⟩ := slabCacheCreate_spec i h
    exact ⟨i', [], hfreed, by simp⟩
  | alloc hfresh h =>
    obtain ⟨-, hfreed, i', -⟩ := slabAlloc_spec i hfresh h
    exact ⟨i', [], hfreed, by simp⟩
  | free hp h =>
    obtain ⟨s', h', hrest⟩ := slabFree_spec i hp
    rw [h] at h'
    cases h'
    exact hrest
  | kfree hp h =>
    have hspec := kfree_spec i hp
    split_ifs at hspec
    · rw [h] at hspec; cases hspec
    · obtain ⟨s', h', hrest⟩ := hspec
      rw [h] at h'
      cases h'
      exact hrest
  | shrink hc h =>
    obtain ⟨s', h', i', -, -, hclean⟩ := slabCacheShrink_spec i hc
    rw [h] at h'
    cases h'
    exact ⟨i', hclean⟩
  | shrinkAll h =>
    obtain ⟨s', h', i', -, -, hclean⟩ := slabShrinkList_spec (List.range SLAB_MAX_CACHES) i
    rw [slabShrinkAll] at h
    rw [h] at h'
    cases h'
    exact ⟨i', hclean⟩

/-! ## The partition -/

/-- Where slot `i` of the slab `a` of the cache `c` is. -/
inductive SlotPlace (w : SlabWorld) (c a i : ℕ) (freeList : List ℕ) : Prop
  /-- On the free list of its slab. -/
  | free (h : i ∈ freeList) (hmag : slabSlot w.st a i ∉ (w.st.caches c).bspMag.rounds)
      (hheld : slabSlot w.st a i ∉ w.held c)
  /-- In the magazine, once. -/
  | cached (h : i ∉ freeList) (hbusy : (w.st.slabs a).bufctl i = SLAB_BUFCTL_BUSY)
      (hmag : (w.st.caches c).bspMag.rounds.count (slabSlot w.st a i) = 1)
      (hheld : slabSlot w.st a i ∉ w.held c)
  /-- With one caller. -/
  | held (h : i ∉ freeList) (hbusy : (w.st.slabs a).bufctl i = SLAB_BUFCTL_BUSY)
      (hmag : slabSlot w.st a i ∉ (w.st.caches c).bspMag.rounds)
      (hheld : (w.held c).count (slabSlot w.st a i) = 1)

/-- The objects of the cache `c`, each in one place, and the cache's lists and counters. -/
structure SlabPartition (w : SlabWorld) (c : ℕ) : Prop where
  /-- The free list of a slab is reached from `freeHead`, has no object twice, has `freeCount`
  objects, and leaves every other slot in the magazine or with a caller. -/
  slot : ∀ k, ∀ a ∈ (w.st.caches c).lists k, ∃ l,
    Chain (w.st.slabs a).bufctl SLAB_BUFCTL_END (w.st.slabs a).freeHead l ∧ l.Nodup ∧
    l.length = (w.st.slabs a).freeCount ∧ (∀ i ∈ l, i < (w.st.caches c).layout.objsPerSlab) ∧
    ∀ i < (w.st.caches c).layout.objsPerSlab, SlotPlace w c a i l
  /-- The magazine and the callers hold slots of slabs of the cache only. -/
  slot_of_outside : ∀ p ∈ w.outside c, ∃ k, ∃ a ∈ (w.st.caches c).lists k,
    ∃ i < (w.st.caches c).layout.objsPerSlab, p = slabSlot w.st a i
  /-- A slab is on one list, once: the one that the number of its free objects implies. -/
  home : ∀ k, ∀ a ∈ (w.st.caches c).lists k, slabWant (w.st.slabs a) = k ∧
    (w.st.slabs a).list = k ∧ ((w.st.caches c).lists k).count a = 1 ∧
    ∀ k', k' ≠ k → a ∉ (w.st.caches c).lists k'
  slabCount_eq : (w.st.caches c).slabCount = ((w.st.caches c).lists .onPartial).length +
    ((w.st.caches c).lists .onFull).length + ((w.st.caches c).lists .onEmpty).length
  emptySlabCount_eq : (w.st.caches c).emptySlabCount = ((w.st.caches c).lists .onEmpty).length
  rounds_le : (w.st.caches c).bspMag.rounds.length ≤ (w.st.caches c).bspMag.capacity ∧
    (w.st.caches c).bspMag.capacity ≤ SLAB_MAG_MAX_ROUNDS
  /-- The statistics count the objects of the callers. -/
  stats : (slabCacheGetStats w.st c).objsAllocated = (w.held c).length ∧
    (slabCacheGetStats w.st c).slabs * (slabCacheGetStats w.st c).objsPerSlab =
      (slabCacheGetStats w.st c).objsFree + (slabCacheGetStats w.st c).objsCached +
        (slabCacheGetStats w.st c).objsAllocated

/-- The slabs of a cache. -/
def SlabCache.slabs (cache : SlabCache) : List ℕ :=
  cache.lists .onPartial ++ cache.lists .onFull ++ cache.lists .onEmpty

theorem CacheInv.mem_slabs (v : CacheInv s c o m) :
    a ∈ (s.caches c).slabs ↔ ∃ k, a ∈ (s.caches c).lists k := by
  simp only [SlabCache.slabs, mem_append]
  constructor
  · rintro ((h | h) | h)
    · exact ⟨_, h⟩
    · exact ⟨_, h⟩
    · exact ⟨_, h⟩
  · rintro ⟨k, h⟩
    cases k with
    | onNone => rw [v.onNone_eq] at h; exact (not_mem_nil h).elim
    | onPartial => exact Or.inl (Or.inl h)
    | onFull => exact Or.inl (Or.inr h)
    | onEmpty => exact Or.inr h

theorem CacheInv.slabs_nodup (v : CacheInv s c o m) : (s.caches c).slabs.Nodup := by
  have hdisj : ∀ {k k'}, k ≠ k' → List.Disjoint ((s.caches c).lists k) ((s.caches c).lists k') :=
    fun hne a ha ha' => hne ((v.list_eq ha).symm.trans (v.list_eq ha'))
  refine Nodup.append ((v.nodup _).append (v.nodup _) (hdisj (by decide))) (v.nodup _) ?_
  rw [disjoint_append_left]
  exact ⟨hdisj (by decide), hdisj (by decide)⟩

/-- The objects that are out, slab by slab. -/
theorem CacheInv.outside_perm (v : CacheInv s c o none) :
    o.Perm ((s.caches c).slabs.flatMap fun a =>
      ((List.range (s.caches c).layout.objsPerSlab).filter fun i =>
        slotAddr (s.caches c).layout a i ∈ o).map (slotAddr (s.caches c).layout a)) := by
  refine (perm_ext_iff_of_nodup v.out_nodup ?_).2 fun p => ?_
  · refine nodup_flatMap.2 ⟨fun a ha => ?_, ?_⟩
    · obtain ⟨k, ha⟩ := v.mem_slabs.1 ha
      refine Nodup.map_on (fun i hi j hj h => ?_) (nodup_range.filter _)
      simp only [mem_filter, mem_range] at hi hj
      exact (v.slot_inj ha ha hi.1 hj.1 h).2
    · refine v.slabs_nodup.imp_of_mem fun {a b} ha hb hne => ?_
      obtain ⟨k, ha⟩ := v.mem_slabs.1 ha
      obtain ⟨k', hb⟩ := v.mem_slabs.1 hb
      intro p hp hp'
      simp only [mem_map, mem_filter, mem_range] at hp hp'
      obtain ⟨i, hi, rfl⟩ := hp
      obtain ⟨j, hj, h⟩ := hp'
      exact hne (v.slot_inj ha hb hi.1 hj.1 h.symm).1
  · simp only [mem_flatMap, mem_map, mem_filter, mem_range, decide_eq_true_eq]
    constructor
    · intro hp
      obtain ⟨k, a, ha, i, hi, rfl⟩ := v.out_slot p hp
      exact ⟨a, v.mem_slabs.2 ⟨k, ha⟩, i, ⟨hi, hp⟩, rfl⟩
    · rintro ⟨a, -, i, ⟨-, hp⟩, rfl⟩
      exact hp

/-- The objects on the free lists and the objects that are out are all the objects. -/
theorem CacheInv.count_eq (v : CacheInv s c o none) :
    slabSumFreeLocked s (s.caches c).slabs + o.length =
      (s.caches c).slabs.length * (s.caches c).layout.objsPerSlab := by
  have hlen := v.outside_perm.length_eq
  rw [length_flatMap] at hlen
  rw [hlen]
  have hall : ∀ l : List ℕ, (∀ a ∈ l, ∃ k, a ∈ (s.caches c).lists k) →
      slabSumFreeLocked s l + (l.map fun a => (((List.range (s.caches c).layout.objsPerSlab).filter
        fun i => slotAddr (s.caches c).layout a i ∈ o).map
          (slotAddr (s.caches c).layout a)).length).sum =
      l.length * (s.caches c).layout.objsPerSlab := by
    intro l hl
    induction l with
    | nil => simp [slabSumFreeLocked]
    | cons a l ih =>
      obtain ⟨k, ha⟩ := hl a mem_cons_self
      have hone := (v.slab ha).free.freeCount_eq
      rw [(v.slab ha).objCount_eq] at hone
      have hrest := ih fun b hb => hl b (mem_cons_of_mem a hb)
      simp only [slabSumFreeLocked, map_cons, sum_cons, length_cons,
        length_map, Nat.succ_mul] at hone hrest ⊢
      omega
  exact hall _ fun a ha => v.mem_slabs.1 ha

/-- The invariant between calls is the partition. -/
theorem SlabWorldInv.partition {w : SlabWorld} (i : SlabWorldInv w) (hc : w.st.inUse c = true) :
    SlabPartition w c := by
  have v : CacheInv w.st c (w.outside c) none := i.inv c hc
  have hcount := v.count_eq
  have hout : (w.outside c).length = (w.st.caches c).bspMag.rounds.length + (w.held c).length :=
    length_append
  have hsum : slabSumFreeLocked w.st (w.st.caches c).slabs =
      slabSumFreeLocked w.st ((w.st.caches c).lists .onPartial) +
      slabSumFreeLocked w.st ((w.st.caches c).lists .onFull) +
      slabSumFreeLocked w.st ((w.st.caches c).lists .onEmpty) := by
    simp [slabSumFreeLocked, SlabCache.slabs, Nat.add_assoc]
  have hslabs : (w.st.caches c).slabs.length = (w.st.caches c).slabCount := by
    rw [v.counts.1]; simp [SlabCache.slabs]; omega
  refine ⟨fun k a ha => ?_, fun p hp => ?_, fun k a ha => ?_, v.counts.1, v.counts.2,
    ⟨i.rounds_le c hc, v.capacity_le⟩, ?_⟩
  · have o := v.slab ha
    obtain ⟨l, hch, hnd, hlen, hmem⟩ := o.free.chain
    rw [o.objCount_eq] at hmem
    refine ⟨l, hch, hnd, hlen, fun j hj => ((hmem j).1 hj).1, fun j hj => ?_⟩
    have hslot : slabSlot w.st a j = slotAddr (w.st.caches c).layout a j := o.slabSlot_eq
    obtain ⟨hnd1, hnd2, hdisj⟩ := nodup_append'.1 v.out_nodup
    by_cases hfree : j ∈ l
    · have hnot := ((hmem j).1 hfree).2
      rw [← hslot] at hnot
      exact .free hfree (fun h => hnot (mem_append_left _ h))
        (fun h => hnot (mem_append_right _ h))
    · have hin : slabSlot w.st a j ∈ w.outside c := by
        rw [hslot]
        by_contra hnot
        exact hfree ((hmem j).2 ⟨hj, hnot⟩)
      have hbusy := o.free.marked j (by rw [o.objCount_eq]; exact hj) (hslot ▸ hin)
      rcases mem_append.1 hin with h | h
      · exact .cached hfree hbusy (count_eq_one_of_mem hnd1 h) (hdisj h)
      · exact .held hfree hbusy (fun h' => hdisj h' h) (count_eq_one_of_mem hnd2 h)
  · obtain ⟨k, a, ha, j, hj, rfl⟩ := v.out_slot p hp
    exact ⟨k, a, ha, j, hj, ((v.slab ha).slabSlot_eq).symm⟩
  · refine ⟨v.homed ha (fun e => nomatch e), v.list_eq ha,
      count_eq_one_of_mem (v.nodup k) ha, fun k' hne ha' => hne ?_⟩
    exact (v.list_eq ha').symm.trans (v.list_eq ha)
  · simp only [slabCacheGetStats]
    rw [hslabs, hsum] at hcount
    omega

/-- **Every object has one place.** Whatever the memory manager answers, after every sequence of
calls each cache that was created has each of its objects in one place, a call returns slabs to the
memory manager only when no object in them is cached or held, and a free of a held object never
reports a bug. -/
theorem slab_partition (slabs : ℕ → Slab) (pages : PageArray) (spans : List PmmSpan)
    (caches : ℕ → SlabCache) (w : SlabWorld)
    (hrun : Run SlabStep (.init slabs pages spans caches) w) :
    (∀ c, w.st.inUse c = true → SlabPartition w c) ∧
      (∀ w', SlabStep w w' → CleanStep w w') ∧
      (∀ c, ∀ p ∈ w.held c, ∃ s', exec (slabFree c p) w.st = (.ok ⟨⟩, s')) := by
  have i : SlabWorldInv w :=
    hrun.invariant (.init slabs pages spans caches) fun i h => (i.step h).1
  refine ⟨fun c hc => i.partition hc, fun w' h => (i.step h).2, fun c p hp => ?_⟩
  obtain ⟨s', h, -⟩ := slabFree_spec i hp
  exact ⟨s', h⟩

/-- A memory manager that has one frame, and hands it out whenever it is fresh. -/
noncomputable def oneFrame : PmmAnswers := fun s order =>
  open Classical in if FreshBlock s order 16 then some 16 else none

theorem oneFrame_fresh : PmmFresh oneFrame := by
  intro s order pfn h
  unfold oneFrame at h
  split_ifs at h with hf
  cases h
  exact hf

/-- No cache, and 1024 frames that are in no slab. -/
def noCaches : SlabWorld :=
  .init (fun _ => ⟨0, 0, 0, 0, 0, 0, .onNone, 0, fun _ => 0⟩) (fun _ => {}) [⟨0, 1024⟩]
    (fun _ => newCache 64 16 false 0 false)

/-- When the first cache has been created, every cache is still as it was: it lists no slab. -/
theorem noCaches_fresh :
    FreshBlock { noCaches.st.setCache 0 (newCache objSize align false 0 false) with
    inUse := update noCaches.st.inUse 0 true } 0 16 := by
  refine ⟨by decide, fun f hf => ⟨?_, fun c k a hc ha => ?_⟩⟩
  · obtain rfl : f = 16 := by unfold InBlock at hf; omega
    exact (by decide +kernel : pmmPfnValid [⟨0, 1024⟩] 16 = true)
  · by_cases h : c = 0 <;> cases k <;> simp [noCaches, SlabWorld.init, setCache, newCache, h] at ha

/-- A refill finds a slab if the memory manager has frames for one. -/
theorem slabPick_ne_none {pfn : ℕ} (h : pmm s (s.caches c).layout.order = some pfn) :
    slabPick pmm s c ≠ none := by
  simp only [slabPick, slabGrow, h]
  split
  · exact Option.some_ne_none _
  · split <;> exact Option.some_ne_none _

/-- A cache of 64-byte objects is created, and one object is allocated from its first slab. -/
theorem run_oneObject : ∃ w p, Run SlabStep noCaches w ∧ w.held 0 = [p] ∧ w.st.inUse 0 = true := by
  set s1 : SlabState := { noCaches.st.setCache 0 (newCache 64 16 false 0 false) with
    inUse := update noCaches.st.inUse 0 true }
  have hcreate : slabCacheCreateInternal noCaches.st 64 16 false 0 false = .ok (0, s1) := by rfl
  have run1 : Run SlabStep noCaches ⟨s1, noCaches.held⟩ := .single (.create hcreate)
  have i1 : SlabWorldInv ⟨s1, noCaches.held⟩ :=
    ((SlabWorldInv.init _ _ _ _).step (.create hcreate)).1
  obtain ⟨r, s2, halloc⟩ := slabAlloc_returns i1 (show s1.inUse 0 = true from rfl) oneFrame
  obtain ⟨-, -, i2, hnone⟩ := slabAlloc_spec i1 oneFrame_fresh halloc
  have horder : (s1.caches 0).layout.order = 0 := by decide +kernel
  have hframe : oneFrame s1 0 = some 16 := if_pos noCaches_fresh
  have hpick : slabPick oneFrame s1 0 ≠ none := slabPick_ne_none (horder.symm ▸ hframe)
  obtain ⟨p, rfl⟩ := Option.ne_none_iff_exists'.1 (mt hnone hpick)
  have run2 := run1.tail (.alloc oneFrame_fresh halloc)
  have hheld : (update noCaches.held 0 (Option.toList (some p) ++ noCaches.held 0)) 0 = [p] := by
    simp [noCaches, SlabWorld.init]
  have huse : s2.inUse 0 = true := by
    by_contra hno
    have := i2.held_nil 0 (by simpa using hno)
    simp at this
  exact ⟨_, p, run2, hheld, huse⟩

/-- A cache of 64-byte objects is created, and one object is allocated from its first slab: one of
the slab's 61 objects is with the caller and the others are free or cached. -/
theorem slab_partition_oneObject :
    ∃ w, Run SlabStep (.init (fun _ => ⟨0, 0, 0, 0, 0, 0, .onNone, 0, fun _ => 0⟩) (fun _ => {})
        [⟨0, 1024⟩] (fun _ => newCache 64 16 false 0 false)) w ∧
      (w.held 0).length = 1 ∧ SlabPartition w 0 := by
  obtain ⟨w, p, hrun, hheld, huse⟩ := run_oneObject
  exact ⟨w, hrun, by rw [hheld]; rfl, (slab_partition _ _ _ _ w hrun).1 0 huse⟩

end Bongos.Mm
