import Mathlib.Data.List.Induction
import Mathlib.Order.Nat

/-!
# Radix tables in a memory

A radix table of depth `n` is a tree of tables in a memory. A memory gives every address a table,
that is an entry for every index, and `link` says which entries point to a table. `walk` follows a
path of indices from the root. The tables are unshared up to depth `n` when no table is reached by
two paths of length at most `n`; then a write shows at one path only.

Two writes keep the tables unshared, and `walk` and `entry` after each of them are given in full: a
write that changes one entry and no walk, as it is in a table of the last depth (`walk_write_sole`)
or replaces an entry without a link by another one (`walk_write_leaf`), and a link to a fresh empty
table at an entry without one (`walk_attach`, `entry_attach`), which adds one path. Each needs only
that the table which is written is not shared (`Sole`). -/

namespace Bongos.RadixTable

open List

variable {A I E : Type*} (link : E → Option A)

/-- The table that a path of indices leads to from the table at `a`. -/
def walk (mem : A → I → E) (a : A) : List I → Option A
  | [] => some a
  | i :: p => (link (mem a i)).bind fun b => walk mem b p

/-- The entry `i` of the table that the path `p` leads to. -/
def entry (mem : A → I → E) (a : A) (p : List I) (i : I) : Option E :=
  (walk link mem a p).map fun b => mem b i

/-- No table is reached by two paths of length at most `n`. -/
def Unshared (n : ℕ) (mem : A → I → E) (root : A) : Prop :=
  ∀ ⦃p q : List I⦄ ⦃a : A⦄, p.length ≤ n → q.length ≤ n → walk link mem root p = some a →
    walk link mem root q = some a → p = q

/-- No path of length at most `n` leads to the table at `b`. -/
def Unused (n : ℕ) (mem : A → I → E) (root b : A) : Prop :=
  ∀ ⦃p : List I⦄, p.length ≤ n → walk link mem root p ≠ some b

variable {link} {mem mem' : A → I → E} {root a b : A} {n : ℕ} {p q : List I} {i j : I} {e : E}

@[simp]
theorem walk_nil : walk link mem a [] = some a := rfl

/-- The last step of a walk reads an entry of the table before it. -/
theorem walk_concat : walk link mem a (p ++ [i]) = (entry link mem a p i).bind link := by
  induction p generalizing a with
  | nil => simp [walk, entry]
  | cons j p ih =>
    cases h : link (mem a j) with
    | none => simp [walk, entry, h]
    | some b => simpa [walk, entry, h] using ih

theorem entry_eq_some : entry link mem a p i = some e ↔
    ∃ b, walk link mem a p = some b ∧ mem b i = e := by
  simp [entry]

/-- Walks agree when the memories agree on every table before the last. -/
theorem walk_congr (h : ∀ (q : List I) (j : I) (c : A), q ++ [j] <+: p →
      walk link mem root q = some c → mem' c j = mem c j) :
    walk link mem' root p = walk link mem root p := by
  induction p using List.reverseRecOn with
  | nil => rfl
  | append_singleton p i ih =>
    have hp := ih fun q j c hq => h q j c (hq.trans (prefix_append p [i]))
    rw [walk_concat, walk_concat, entry, entry, hp]
    cases hw : walk link mem root p with
    | none => rfl
    | some c => simp [h p i c (prefix_refl _) hw]

/-- No other path of length at most `n` leads to the table at the end of `p`. -/
def Sole (link : E → Option A) (n : ℕ) (mem : A → I → E) (root : A) (p : List I) (a : A) : Prop :=
  ∀ ⦃q : List I⦄, q.length ≤ n → walk link mem root q = some a → q = p

theorem Unshared.sole (hu : Unshared link n mem root) (ha : walk link mem root p = some a)
    (hp : p.length ≤ n) : Sole link n mem root p a := fun _ hq h => hu hq hp h ha

theorem Unshared.congr (hu : Unshared link n mem root)
    (h : ∀ q, q.length ≤ n → walk link mem' root q = walk link mem root q) :
    Unshared link n mem' root :=
  fun p q _ hp hq hpa hqa => hu hp hq ((h p hp).symm.trans hpa) ((h q hq).symm.trans hqa)

/-- Tables to which at most one entry leads are not shared. -/
theorem unshared_of_inj (hroot : ∀ a i, link (mem a i) ≠ some root)
    (hinj : ∀ {a i a' i' b}, link (mem a i) = some b → link (mem a' i') = some b →
      a = a' ∧ i = i') :
    Unshared link n mem root := by
  have hstep : ∀ {p i c}, walk link mem root (p ++ [i]) = some c →
      ∃ b, walk link mem root p = some b ∧ link (mem b i) = some c := fun h => by
    rwa [walk_concat, entry, Option.bind_map, Option.bind_eq_some_iff] at h
  suffices ∀ p q a, walk link mem root p = some a → walk link mem root q = some a → p = q from
    fun p q a _ _ => this p q a
  intro p
  induction p using List.reverseRecOn with
  | nil =>
    rintro q _ ⟨⟩ hq
    rcases eq_nil_or_concat q with rfl | ⟨q, j, rfl⟩
    · rfl
    · obtain ⟨b, -, hlink⟩ := hstep (concat_eq_append ▸ hq)
      exact absurd hlink (hroot b j)
  | append_singleton p i ih =>
    intro q a hp hq
    obtain ⟨b, hb, hlink⟩ := hstep hp
    rcases eq_nil_or_concat q with rfl | ⟨q, j, rfl⟩
    · cases hq
      exact absurd hlink (hroot b i)
    · obtain ⟨c, hc, hlink'⟩ := hstep (concat_eq_append ▸ hq)
      obtain ⟨rfl, rfl⟩ := hinj hlink hlink'
      rw [ih q b hb hc, concat_eq_append]

/-- A path leads to a table that is not shared exactly when it is the table's own. -/
theorem Sole.eq_iff (hs : Sole link n mem root p a) (ha : walk link mem root p = some a) {c : A}
    (hq : q.length ≤ n) (hw : walk link mem root q = some c) : c = a ↔ q = p :=
  ⟨fun h => hs hq (h ▸ hw), fun h => by rw [h, ha] at hw; exact (Option.some.inj hw).symm⟩

variable [DecidableEq A] [DecidableEq I]

/-- The memory with one entry written. -/
def write (mem : A → I → E) (a : A) (i : I) (e : E) : A → I → E :=
  Function.update mem a (Function.update (mem a) i e)

theorem write_apply : write mem a i e b j = if b = a ∧ j = i then e else mem b j := by
  unfold write
  by_cases hb : b = a
  · subst hb
    by_cases hj : j = i <;> simp [hj]
  · simp [hb]

/-- A write in a table of the last depth that is not shared changes no walk. -/
theorem walk_write_sole (hs : Sole link n mem root p a) (hp : p.length = n) (hq : q.length ≤ n) :
    walk link (write mem a i e) root q = walk link mem root q := by
  refine walk_congr fun r j c hr hc => ?_
  have hlen := hr.length_le
  simp only [length_append, length_singleton] at hlen
  -- The table is not on the way: it would be reached by a shorter path too.
  have hne : c ≠ a := by
    rintro rfl
    have := hs (by omega) hc
    subst this
    omega
  simp [write_apply, hne]

/-- A write changes no walk when neither the old entry nor the new one leads anywhere. -/
theorem walk_write_leaf (hold : link (mem a i) = none) (hnew : link e = none) :
    walk link (write mem a i e) root q = walk link mem root q := by
  induction q using List.reverseRecOn with
  | nil => rfl
  | append_singleton q j ih =>
    rw [walk_concat, walk_concat, entry, entry, ih]
    cases walk link mem root q with
    | none => rfl
    | some c =>
      by_cases h : c = a ∧ j = i
      · simp [write_apply, h, hold, hnew]
      · simp [write_apply, h]

/-- A write that changes no walk changes one entry. -/
theorem entry_write (hs : Sole link n mem root p a) (ha : walk link mem root p = some a)
    (hq : q.length ≤ n) (hwalk : walk link (write mem a i e) root q = walk link mem root q) :
    entry link (write mem a i e) root q j =
      if q = p ∧ j = i then some e else entry link mem root q j := by
  simp only [entry, hwalk]
  cases hw : walk link mem root q with
  | none =>
    have hne : q ≠ p := by rintro rfl; simp [ha] at hw
    simp [hne]
  | some c =>
    have hca := hs.eq_iff ha hq hw
    by_cases h : c = a ∧ j = i
    · simp [write_apply, h, hca.1 h.1]
    · have h' : ¬ (q = p ∧ j = i) := by rwa [← hca]
      simp [write_apply, h, h']

section Attach

/-- The memory with an empty table at `b`, linked from the entry `i` of the table at `a`. -/
def attach (mem : A → I → E) (a : A) (i : I) (e : E) (b : A) (zero : E) : A → I → E :=
  write (Function.update mem b fun _ => zero) a i e

/-- What a new table needs: the table it is linked from is not shared, the entry there leads
nowhere, the new entry leads to it, it is not in use, and it is empty. -/
structure CanAttach (link : E → Option A) (n : ℕ) (mem : A → I → E) (root : A) (p : List I) (a : A)
    (i : I) (e : E) (b : A) (zero : E) : Prop where
  sole : Sole link n mem root p a
  walk_eq : walk link mem root p = some a
  length_lt : p.length < n
  old : link (mem a i) = none
  new : link e = some b
  unused : Unused link n mem root b
  empty : link zero = none

variable {zero : E}

section

variable (h : CanAttach link n mem root p a i e b zero) (hq : q.length ≤ n)

include h hq

/-- A new table adds one path. -/
theorem walk_attach : walk link (attach mem a i e b zero) root q =
      if q = p ++ [i] then some b else walk link mem root q := by
  have hab : a ≠ b := fun hab => h.unused h.length_lt.le (hab ▸ h.walk_eq)
  induction q using List.reverseRecOn with
  | nil => simp
  | append_singleton q j ih =>
    simp only [length_append, length_singleton] at hq
    specialize ih (by omega)
    rw [walk_concat, walk_concat, entry, entry, ih]
    by_cases hqp : q = p ++ [i]
    · -- One step below the new table: nothing before, and nothing now.
      have hold : walk link mem root q = none := by
        rw [hqp, walk_concat, entry, h.walk_eq]
        exact h.old
      have hne : q ++ [j] ≠ p ++ [i] := by
        rw [hqp]; intro heq; simpa using congrArg List.length heq
      rw [if_pos hqp, if_neg hne, hold]
      simp [attach, write_apply, hab.symm, h.empty]
    · rw [if_neg hqp]
      cases hw : walk link mem root q with
      | none =>
        have : q ≠ p := by rintro rfl; simp [h.walk_eq] at hw
        simp [this]
      | some c =>
        have hcb : c ≠ b := fun hc => h.unused (by omega) (hc ▸ hw)
        have hca := h.sole.eq_iff h.walk_eq (by omega) hw
        have heq : q ++ [j] = p ++ [i] ↔ c = a ∧ j = i := by simp [hca]
        by_cases hhere : c = a ∧ j = i
        · rw [if_pos (heq.2 hhere)]
          simp [attach, write_apply, hhere, h.new]
        · have : q ++ [j] ≠ p ++ [i] := mt heq.1 hhere
          simp [attach, write_apply, hhere, this, hcb]

/-- A new table changes the entry that links to it, and its own entries are empty. -/
theorem entry_attach : entry link (attach mem a i e b zero) root q j =
      if q = p ++ [i] then some zero
      else if q = p ∧ j = i then some e else entry link mem root q j := by
  have hab : a ≠ b := fun hab => h.unused h.length_lt.le (hab ▸ h.walk_eq)
  simp only [entry, walk_attach h hq]
  split_ifs with hqp hhere
  · simp [attach, write_apply, hab.symm]
  · simp [hhere, h.walk_eq, attach, write_apply]
  · cases hw : walk link mem root q with
    | none => rfl
    | some c =>
      have hcb : c ≠ b := fun hc => h.unused hq (hc ▸ hw)
      have hca : ¬ (c = a ∧ j = i) := by
        rintro ⟨rfl, rfl⟩
        exact hhere ⟨h.sole hq hw, rfl⟩
      simp [attach, write_apply, hca, hcb]

/-- The new table and the tables that were not shared are not shared. -/
theorem sole_attach {c : A} (hc : walk link (attach mem a i e b zero) root q = some c)
    (hs : walk link mem root q = some c → Sole link n mem root q c) :
    Sole link n (attach mem a i e b zero) root q c := by
  intro r hr hrc
  rw [walk_attach h hq] at hc
  rw [walk_attach h hr] at hrc
  split_ifs at hc hrc with h1 h2 h2
  · rw [h1, h2]
  · cases hc
    exact absurd hrc (h.unused hr)
  · cases hrc
    exact absurd hc (h.unused hq)
  · exact hs hc hr hrc

end

theorem unshared_attach (hu : Unshared link n mem root)
    (h : CanAttach link n mem root p a i e b zero) :
    Unshared link n (attach mem a i e b zero) root :=
  fun _ _ _ hq hr hqc hrc => sole_attach h hr hrc (fun hc => hu.sole hc hr) hq hqc

end Attach

end Bongos.RadixTable
