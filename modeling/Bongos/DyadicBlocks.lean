import Mathlib.Data.Nat.Bitwise
import Mathlib.Tactic

/-!
# Dyadic blocks and tilings

A block of order `k` at `p` is the range of `2^k` numbers from `p`, with `p` a multiple of `2^k`.
Two such blocks are nested or disjoint (`InBlock.nested`), and the two halves of a block of order `k
+ 1` are each other's `buddy`, one bit apart (`inBlock_parent`).

A `Tiling` labels each number as the head of a block, as a tail, or as neither. The tails are the
numbers of the blocks besides their heads, together with a set `H` of tails in no block: numbers
that some owner has taken out of the tiling. `Tiling.dissolve` returns a block to that set,
`Tiling.form` makes a block out of a part of it, and `Tiling.enter` adds numbers that had no label.
Every operation of an allocator that splits and merges blocks is a composition of the three.

A family of disjoint blocks is canonical when no block and its buddy are both in it. Such a family
is determined by the set of numbers it covers (`Family.ext_of_cover`).
-/

namespace Bongos.DyadicBlocks

/-- The number `f` lies in the block of order `k` at `p`. -/
def InBlock (f p k : ℕ) : Prop := p ≤ f ∧ f < p + 2^k

instance (f p k : ℕ) : Decidable (InBlock f p k) := inferInstanceAs (Decidable (_ ∧ _))

/-- The other half of the block of order `k + 1` that holds the block of order `k` at `p`. -/
def buddy (p k : ℕ) : ℕ := p ^^^ 2^k

/-- The base of the block of order `k + 1` that holds the block of order `k` at `p`: bit `k` of `p`
cleared. -/
def parent (p k : ℕ) : ℕ := p ^^^ (p &&& 2^k)

/-! ## Nesting -/

/-- A block holds its base. -/
theorem inBlock_self (p k : ℕ) : InBlock p p k := ⟨le_rfl, by have := Nat.two_pow_pos k; omega⟩

variable {f p k q : ℕ}

/-- A block of order zero holds its base only. -/
@[simp]
theorem inBlock_zero : InBlock f p 0 ↔ f = p := by
  unfold InBlock; rw [pow_zero]; omega

/-- An aligned block holds the numbers with the quotient of its base. -/
theorem inBlock_iff_div (hp : 2^k ∣ p) : InBlock f p k ↔ f / 2^k = p / 2^k := by
  obtain ⟨q, rfl⟩ := hp
  have hpos := Nat.two_pow_pos k
  rw [Nat.mul_div_cancel_left q hpos, Nat.div_eq_iff hpos]
  unfold InBlock
  rw [Nat.mul_comm q]
  omega

/-- Two aligned blocks of one order that meet are the same block. -/
theorem InBlock.base_eq (hp : 2^k ∣ p) (hq : 2^k ∣ q) (h : InBlock f p k)
    (h' : InBlock f q k) : p = q := by
  rw [inBlock_iff_div hp] at h
  rw [inBlock_iff_div hq] at h'
  rw [← Nat.div_mul_cancel hp, ← Nat.div_mul_cancel hq, ← h, h']

/-- Of two aligned blocks that meet, the one of the smaller order lies in the other. -/
theorem InBlock.nested {g j : ℕ} (hp : 2^j ∣ p) (hq : 2^k ∣ q) (hjk : j ≤ k)
    (h : InBlock f p j) (h' : InBlock f q k) (hg : InBlock g p j) : InBlock g q k := by
  rw [inBlock_iff_div hp] at h hg
  rw [inBlock_iff_div hq] at h' ⊢
  have hpow : 2^k = 2^j * 2^(k - j) := by rw [← pow_add]; congr 1; omega
  rw [← h', hpow, ← Nat.div_div_eq_div_mul, ← Nat.div_div_eq_div_mul, hg, h]

/-! ## Buddies -/

/-- The buddy's index among the blocks of order `k` is the index with its low bit flipped. -/
theorem buddy_mul : buddy (q * 2^k) k = (q ^^^ 1) * 2^k := by
  unfold buddy
  rw [← Nat.shiftLeft_eq, ← Nat.shiftLeft_eq, Nat.shiftLeft_xor_distrib, Nat.one_shiftLeft]

/-- The parent's base is the index rounded down to an even one, times the block size. -/
theorem parent_mul : parent (q * 2^k) k = (q ^^^ (q % 2)) * 2^k := by
  unfold parent
  rw [← Nat.and_one_is_mod, ← Nat.shiftLeft_eq, ← Nat.shiftLeft_eq, Nat.shiftLeft_xor_distrib,
    Nat.shiftLeft_and_distrib, Nat.one_shiftLeft]

/-- An aligned block is the lower or the upper half of its parent. -/
theorem half_cases (h : 2^k ∣ p) : (2^(k + 1) ∣ p ∧ buddy p k = p + 2^k ∧ parent p k = p) ∨
      (2^(k + 1) ∣ p - 2^k ∧ 2^k ≤ p ∧ buddy p k = p - 2^k ∧ parent p k = p - 2^k) := by
  obtain ⟨q, rfl⟩ := h
  rw [Nat.mul_comm, buddy_mul, parent_mul]
  rcases Nat.even_or_odd q with he | ho
  · left
    obtain ⟨r, rfl⟩ := he
    rw [Nat.xor_one_of_even ⟨r, rfl⟩]
    refine ⟨⟨r, by rw [pow_succ]; ring⟩, by ring, ?_⟩
    rw [show (r + r) % 2 = 0 by omega, Nat.xor_zero]
  · right
    obtain ⟨r, rfl⟩ := ho
    rw [show (2 * r + 1) % 2 = 1 by omega, Nat.xor_one_of_odd ⟨r, rfl⟩]
    have hsub : (2 * r + 1) * 2^k - 2^k = 2 * r * 2^k := by
      rw [Nat.add_mul, Nat.one_mul, Nat.add_sub_cancel]
    rw [hsub, Nat.add_sub_cancel]
    exact ⟨⟨r, by rw [pow_succ]; ring⟩, Nat.le_mul_of_pos_left _ (by omega), rfl, rfl⟩

/-- The buddy of a lower half is the upper half. -/
theorem buddy_of_lower (h : 2^(k + 1) ∣ p) : buddy p k = p + 2^k := by
  rcases half_cases (dvd_trans (pow_dvd_pow 2 (Nat.le_succ k)) h) with ⟨-, hb, -⟩ | ⟨hd, hle, -, -⟩
  · exact hb
  · -- An upper half is `2^k` past a multiple of `2^(k+1)`.
    have hdvd : 2^(k + 1) ∣ p - (p - 2^k) := Nat.dvd_sub h hd
    rw [Nat.sub_sub_self hle] at hdvd
    have := Nat.le_of_dvd (Nat.two_pow_pos k) hdvd
    omega

/-- A block is not its own buddy. -/
theorem buddy_ne (h : 2^k ∣ p) : buddy p k ≠ p := by
  rcases half_cases h with ⟨-, hb, -⟩ | ⟨-, hle, hb, -⟩ <;> omega

/-- The buddy of the buddy is the block itself. -/
@[simp]
theorem buddy_buddy : buddy (buddy p k) k = p := by
  unfold buddy; rw [Nat.xor_assoc, Nat.xor_self, Nat.xor_zero]

/-- The parent's base is aligned to the parent's order. -/
theorem parent_aligned (h : 2^k ∣ p) : 2^(k + 1) ∣ parent p k := by
  rcases half_cases h with ⟨hd, -, hp⟩ | ⟨hd, -, -, hp⟩ <;> rwa [hp]

/-- A parent is its two halves. -/
theorem inBlock_parent (h : 2^k ∣ p) :
    InBlock f (parent p k) (k + 1) ↔ InBlock f p k ∨ InBlock f (buddy p k) k := by
  unfold InBlock
  rcases half_cases h with ⟨-, hb, hp⟩ | ⟨-, hle, hb, hp⟩ <;> rw [hb, hp] <;> omega

/-- A block that is aligned to the order above it is the lower half of its parent. -/
theorem inBlock_succ : InBlock f p (k + 1) ↔ InBlock f p k ∨ InBlock f (p + 2^k) k := by
  unfold InBlock
  omega

/-! ## Tilings -/

/-- A labelling of the numbers by disjoint aligned blocks of order at most `N`: `head p = some k`
labels `p` as the head of the block of order `k` at `p`, and `tail f` labels `f` as a tail. `H` is
the set of tails that no block covers. -/
structure Tiling (N : ℕ) (head : ℕ → Option ℕ) (tail : ℕ → Prop) (H : Set ℕ) : Prop where
  /-- No block is larger than the largest order. -/
  order_le : ∀ {p k}, head p = some k → k ≤ N
  /-- Every block is aligned to its size. -/
  aligned : ∀ {p k}, head p = some k → 2^k ∣ p
  /-- A head is not a tail. -/
  head_not_tail : ∀ {p k}, head p = some k → ¬ tail p
  /-- The other numbers of a block are tails, and the block covers them. -/
  block_tail : ∀ {p k f}, head p = some k → InBlock f p k → f ≠ p → tail f ∧ f ∉ H
  /-- The numbers taken out are tails. -/
  hole_tail : ∀ {f}, f ∈ H → tail f
  /-- A tail that is not taken out lies in a block. -/
  cover : ∀ {f}, tail f → f ∉ H → ∃ p k, head p = some k ∧ InBlock f p k

namespace Tiling

variable {N : ℕ} {head head' : ℕ → Option ℕ} {tail tail' : ℕ → Prop} {H : Set ℕ}

variable {f p k : ℕ}

section

variable (t : Tiling N head tail H)

include t

/-- Blocks are disjoint: two heads whose blocks share a number are one. -/
theorem head_eq {q j : ℕ} (hp : head p = some j)
    (hq : head q = some k) (h : InBlock f p j) (h' : InBlock f q k) : p = q := by
  -- The smaller block lies in the larger one, so its head would be a tail there.
  wlog hjk : j ≤ k generalizing p q j k
  · exact (this hq hp h' h (by omega)).symm
  by_contra hne
  have hin := InBlock.nested (t.aligned hp) (t.aligned hq) hjk h h' (inBlock_self p j)
  exact t.head_not_tail hp (t.block_tail hq hin hne).1

/-- No block holds a number that is taken out. -/
theorem not_mem_hole (hp : head p = some k) (h : InBlock f p k) : f ∉ H := by
  by_cases hf : f = p
  · subst hf; exact fun hH => t.head_not_tail hp (t.hole_tail hH)
  · exact (t.block_tail hp h hf).2

/-- A block of the tiling can be taken out: its head becomes a tail, and its numbers join `H`. -/
theorem dissolve (hp : head p = some k) (hhead : ∀ f, head' f = if f = p then none else head f)
    (htail : ∀ f, tail' f ↔ tail f ∨ f = p) :
    Tiling N head' tail' (H ∪ {f | InBlock f p k}) := by
  have old : ∀ {q j}, head' q = some j → q ≠ p ∧ head q = some j := by
    intro q j hq
    rw [hhead] at hq
    split_ifs at hq with h
    exact ⟨h, hq⟩
  constructor
  · intro q j hq; exact t.order_le (old hq).2
  · intro q j hq; exact t.aligned (old hq).2
  · intro q j hq h
    rcases (htail q).1 h with h | h
    · exact t.head_not_tail (old hq).2 h
    · exact (old hq).1 h
  · intro q j f hq hf hne
    obtain ⟨hqp, hq⟩ := old hq
    obtain ⟨h1, h2⟩ := t.block_tail hq hf hne
    refine ⟨(htail f).2 (.inl h1), ?_⟩
    rintro (h | h)
    · exact h2 h
    · exact hqp (t.head_eq hq hp hf h)
  · intro f hf
    rw [htail]
    rcases hf with hf | hf
    · exact .inl (t.hole_tail hf)
    · by_cases hfp : f = p
      · exact .inr hfp
      · exact .inl (t.block_tail hp hf hfp).1
  · intro f hf hH
    rw [Set.mem_union, not_or] at hH
    have htf : tail f := by
      rcases (htail f).1 hf with h | h
      · exact h
      · exact absurd (h ▸ inBlock_self p k) hH.2
    obtain ⟨q, j, hq, hin⟩ := t.cover htf hH.1
    have hqp : q ≠ p := by
      rintro rfl
      rw [hp] at hq
      cases hq
      exact hH.2 hin
    exact ⟨q, j, by rw [hhead, if_neg hqp, hq], hin⟩

/-- Numbers taken out that make up an aligned block can be put back as a block. -/
theorem form (hk : k ≤ N) (hal : 2^k ∣ p)
    (hH : ∀ f, InBlock f p k → f ∈ H) (hhead : ∀ f, head' f = if f = p then some k else head f)
    (htail : ∀ f, tail' f ↔ tail f ∧ f ≠ p) :
    Tiling N head' tail' (H \ {f | InBlock f p k}) := by
  have cases' : ∀ {q j}, head' q = some j → (q = p ∧ j = k) ∨ (q ≠ p ∧ head q = some j) := by
    intro q j hq
    rw [hhead] at hq
    split_ifs at hq with h
    · cases hq; exact .inl ⟨h, rfl⟩
    · exact .inr ⟨h, hq⟩
  constructor
  · intro q j hq
    rcases cases' hq with ⟨-, rfl⟩ | ⟨-, hq⟩
    · exact hk
    · exact t.order_le hq
  · intro q j hq
    rcases cases' hq with ⟨rfl, rfl⟩ | ⟨-, hq⟩
    · exact hal
    · exact t.aligned hq
  · intro q j hq h
    rcases cases' hq with ⟨rfl, rfl⟩ | ⟨-, hq⟩
    · exact ((htail q).1 h).2 rfl
    · exact t.head_not_tail hq ((htail q).1 h).1
  · intro q j f hq hf hne
    rcases cases' hq with ⟨rfl, rfl⟩ | ⟨hqp, hq⟩
    · exact ⟨(htail f).2 ⟨t.hole_tail (hH f hf), hne⟩, fun h => h.2 hf⟩
    · obtain ⟨h1, h2⟩ := t.block_tail hq hf hne
      refine ⟨(htail f).2 ⟨h1, ?_⟩, fun h => h2 h.1⟩
      rintro rfl
      exact h2 (hH f (inBlock_self f k))
  · intro f hf
    refine (htail f).2 ⟨t.hole_tail hf.1, ?_⟩
    rintro rfl
    exact hf.2 (inBlock_self f k)
  · intro f hf hH'
    obtain ⟨hf, hfp⟩ := (htail f).1 hf
    by_cases hb : InBlock f p k
    · exact ⟨p, k, by rw [hhead, if_pos rfl], hb⟩
    · obtain ⟨q, j, hq, hin⟩ := t.cover hf (fun h => hH' ⟨h, hb⟩)
      have hqp : q ≠ p := by
        rintro rfl
        exact t.not_mem_hole hq (inBlock_self q j) (hH q (inBlock_self q k))
      exact ⟨q, j, by rw [hhead, if_neg hqp, hq], hin⟩

/-- Numbers with no label can be added to those taken out. -/
theorem enter {S : Set ℕ} (hS : ∀ f ∈ S, head f = none ∧ ¬ tail f)
    (hhead : ∀ f, head' f = head f) (htail : ∀ f, tail' f ↔ tail f ∨ f ∈ S) :
    Tiling N head' tail' (H ∪ S) := by
  have hblock : ∀ {q j f}, head q = some j → InBlock f q j → f ∉ S := by
    intro q j f hq hf hfS
    by_cases hfq : f = q
    · subst hfq; rw [(hS f hfS).1] at hq; cases hq
    · exact (hS f hfS).2 (t.block_tail hq hf hfq).1
  constructor
  · intro q j hq; rw [hhead] at hq; exact t.order_le hq
  · intro q j hq; rw [hhead] at hq; exact t.aligned hq
  · intro q j hq h
    rw [hhead] at hq
    rcases (htail q).1 h with h | h
    · exact t.head_not_tail hq h
    · exact hblock hq (inBlock_self q j) h
  · intro q j f hq hf hne
    rw [hhead] at hq
    obtain ⟨h1, h2⟩ := t.block_tail hq hf hne
    refine ⟨(htail f).2 (.inl h1), ?_⟩
    rintro (h | h)
    · exact h2 h
    · exact hblock hq hf h
  · intro f hf
    rw [htail]
    exact hf.imp t.hole_tail id
  · intro f hf hH
    rw [Set.mem_union, not_or] at hH
    rcases (htail f).1 hf with h | h
    · obtain ⟨q, j, hq, hin⟩ := t.cover h hH.1
      exact ⟨q, j, by rw [hhead, hq], hin⟩
    · exact absurd h hH.2

end

end Tiling

/-! ## Canonical families -/

/-- A family of disjoint aligned blocks of order at most `N`: `B k p` when the block of order `k` at
`p` belongs to it. -/
structure Family (N : ℕ) (B : ℕ → ℕ → Prop) : Prop where
  /-- No block is larger than the largest order. -/
  order_le : ∀ {k p}, B k p → k ≤ N
  /-- Every block is aligned to its size. -/
  aligned : ∀ {k p}, B k p → 2^k ∣ p
  /-- Two blocks that share a number are one. -/
  eq_of_mem : ∀ {j p k q f}, B j p → B k q → InBlock f p j → InBlock f q k → j = k ∧ p = q

/-- The numbers that a family covers. -/
def cover (B : ℕ → ℕ → Prop) : Set ℕ := {f | ∃ k p, B k p ∧ InBlock f p k}

/-- No block below the largest order is in the family together with its buddy. -/
def Canonical (N : ℕ) (B : ℕ → ℕ → Prop) : Prop := ∀ k p, k < N → B k p → ¬ B k (buddy p k)

namespace Family

variable {N : ℕ} {B B' : ℕ → ℕ → Prop}

/-- Any aligned block that a canonical family covers lies in one block of the family. -/
theorem block_of_cover (fam : Family N B) (hc : Canonical N B) :
    ∀ {k p : ℕ}, k ≤ N → 2^k ∣ p → (∀ f, InBlock f p k → f ∈ cover B) →
      ∃ j q, k ≤ j ∧ B j q ∧ InBlock p q j := by
  intro k
  induction k with
  | zero =>
    intro p _ _ hcov
    obtain ⟨j, q, hB, hin⟩ := hcov p (inBlock_self p 0)
    exact ⟨j, q, Nat.zero_le j, hB, hin⟩
  | succ k ih =>
    -- Each half lies in one block. If one of these is larger than the half, it holds both halves;
    -- otherwise the halves themselves are in the family, and they are buddies.
    intro p hk hal hcov
    have hlow : 2^k ∣ p := dvd_trans (pow_dvd_pow 2 (Nat.le_succ k)) hal
    have hup : 2^k ∣ p + 2^k := Dvd.dvd.add hlow dvd_rfl
    obtain ⟨j1, q1, hj1, hB1, hin1⟩ := ih (by omega) hlow
      (fun f hf => hcov f (inBlock_succ.2 (.inl hf)))
    obtain ⟨j2, q2, hj2, hB2, hin2⟩ := ih (by omega) hup
      (fun f hf => hcov f (inBlock_succ.2 (.inr hf)))
    rcases Nat.lt_or_ge k j1 with h1 | h1
    · exact ⟨j1, q1, h1, hB1, hin1⟩
    rcases Nat.lt_or_ge k j2 with h2 | h2
    · have hmem : InBlock (p + 2^k) p (k + 1) := inBlock_succ.2 (.inr (inBlock_self _ _))
      exact ⟨j2, q2, h2, hB2, InBlock.nested hal (fam.aligned hB2) h2 hmem hin2 (inBlock_self _ _)⟩
    obtain rfl : j1 = k := by omega
    obtain rfl : j2 = j1 := by omega
    have e1 : p = q1 := InBlock.base_eq hlow (fam.aligned hB1) (inBlock_self _ _) hin1
    have e2 : p + 2^j2 = q2 := InBlock.base_eq hup (fam.aligned hB2) (inBlock_self _ _) hin2
    subst e1 e2
    exact absurd (buddy_of_lower hal ▸ hB2) (hc _ _ (by omega) hB1)

section

variable (fam : Family N B) (fam' : Family N B') (hc : Canonical N B) (hc' : Canonical N B')
  (hcov : cover B = cover B')

include fam fam' hc hc' hcov

/-- A block of one canonical family is a block of every canonical family with the same cover. -/
theorem mem_of_cover {k p : ℕ} (h : B k p) : B' k p := by
  have hin : ∀ f, InBlock f p k → f ∈ cover B' := fun f hf => hcov ▸ ⟨k, p, h, hf⟩
  obtain ⟨j, q, hkj, hB', hq⟩ := fam'.block_of_cover hc' (fam.order_le h) (fam.aligned h) hin
  have hin' : ∀ f, InBlock f q j → f ∈ cover B := fun f hf => hcov ▸ ⟨j, q, hB', hf⟩
  obtain ⟨i, r, hji, hB, hr⟩ := fam.block_of_cover hc (fam'.order_le hB') (fam'.aligned hB') hin'
  have hpr : InBlock p r i :=
    InBlock.nested (fam'.aligned hB') (fam.aligned hB) hji (inBlock_self q j) hr hq
  obtain ⟨rfl, rfl⟩ := fam.eq_of_mem h hB (inBlock_self p k) hpr
  obtain rfl : j = k := by omega
  rwa [InBlock.base_eq (fam.aligned h) (fam'.aligned hB') (inBlock_self p j) hq]

/-- A canonical family is determined by the numbers it covers. -/
theorem ext_of_cover : B = B' := by
  funext k p
  exact propext ⟨fam.mem_of_cover fam' hc hc' hcov, fam'.mem_of_cover fam hc' hc hcov.symm⟩

end

end Family

end Bongos.DyadicBlocks
