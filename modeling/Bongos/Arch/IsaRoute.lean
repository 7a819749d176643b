import Bongos.Arch.IrqCore
import Mathlib.Data.Finset.Card
import Mathlib.Data.List.Pairwise

/-!
# The routes of the ISA interrupts

`irqCoreIsaRoute` reads the overrides of the firmware in order and accepts one only if neither its
source nor its GSI was accepted before. Which overrides count is said of the list alone
(`Accepted`), and the loop accepts these (`mem_acceptIsos`). They are an injective map from at most
16 sources (`AcceptedOk`), and with the sources that have none, where these are not taken over, the
routes stay injective (`irqCoreIsaRoute_exact`).
-/

namespace Bongos.Arch

open List

variable {isos : List AcpiIso} {o : AcpiIso} {irq : ℕ}

/-! ## The accepted overrides -/

/-- An override that the loop accepts after `acc`. -/
def Acceptable (acc : List AcpiIso) (o : AcpiIso) : Prop :=
  o.bus = 0 ∧ o.source.toNat < IRQ_ISA_COUNT ∧ ∀ a ∈ acc, a.source ≠ o.source ∧ a.gsi ≠ o.gsi

instance (acc : List AcpiIso) (o : AcpiIso) : Decidable (Acceptable acc o) :=
  inferInstanceAs (Decidable (_ ∧ _ ∧ _))

/-- One more override. -/
theorem acceptIsos_concat : (acceptIsos (isos ++ [o])).1 =
    if Acceptable (acceptIsos isos).1 o then (acceptIsos isos).1 ++ [o]
    else (acceptIsos isos).1 := by
  rw [acceptIsos, foldl_append, ← acceptIsos]
  simp only [foldl_cons, foldl_nil]
  by_cases hrange : o.bus ≠ 0 ∨ o.source.toNat ≥ IRQ_ISA_COUNT
  · have hno : ¬ Acceptable (acceptIsos isos).1 o := fun hok =>
      hrange.elim (fun h => h hok.1) (Nat.not_le.2 hok.2.1)
    rw [if_pos hrange, if_neg hno]
  rw [if_neg hrange]
  rw [not_or, not_not, Nat.not_le] at hrange
  by_cases hdup : ((acceptIsos isos).1.any fun a => a.source = o.source ∨ a.gsi = o.gsi) = true
  · have hno : ¬ Acceptable (acceptIsos isos).1 o := fun hok => by
      obtain ⟨a, ha, heq⟩ := any_eq_true.1 hdup
      exact absurd (of_decide_eq_true heq) (not_or.2 (hok.2.2 a ha))
    rw [if_pos hdup, if_neg hno]
  · have hok : Acceptable (acceptIsos isos).1 o := by
      refine ⟨hrange.1, hrange.2, fun a ha => not_or.1 fun heq => hdup ?_⟩
      exact any_eq_true.2 ⟨a, ha, decide_eq_true heq⟩
    rw [if_neg hdup, if_pos hok]

/-- The overrides that count, of a list that is read from its end: those of the ISA bus and an ISA
source of which no earlier one that counts has the source or the GSI. -/
def Counts : List AcpiIso → AcpiIso → Prop
  | [], _ => False
  | o' :: earlier, o => Counts earlier o ∨
    o = o' ∧ o'.bus = 0 ∧ o'.source.toNat < 16 ∧
      ∀ a, Counts earlier a → a.source ≠ o'.source ∧ a.gsi ≠ o'.gsi

/-- The overrides of a list that count. -/
def Accepted (isos : List AcpiIso) (o : AcpiIso) : Prop := Counts isos.reverse o

/-- The loop accepts the overrides that count. -/
theorem mem_acceptIsos : o ∈ (acceptIsos isos).1 ↔ Accepted isos o := by
  unfold Accepted
  induction isos using List.reverseRecOn generalizing o with
  | nil => exact ⟨fun h => absurd h not_mem_nil, False.elim⟩
  | append_singleton isos o' ih =>
    -- Whether the last one is acceptable does not depend on how the earlier ones are described.
    have hok : Acceptable (acceptIsos isos).1 o' ↔ o'.bus = 0 ∧ o'.source.toNat < 16 ∧
        ∀ a, Counts isos.reverse a → a.source ≠ o'.source ∧ a.gsi ≠ o'.gsi := by
      simp only [Acceptable, ih, IRQ_ISA_COUNT]
    rw [acceptIsos_concat, reverse_concat, Counts, ← ih, ← hok]
    split_ifs with hacc
    · rw [mem_append, mem_singleton, and_iff_left hacc]
    · exact (or_iff_left fun h => hacc h.2).symm

/-- The accepted overrides are of ISA sources, and no two share a source or a GSI. -/
structure AcceptedOk (acc : List AcpiIso) : Prop where
  source_lt : ∀ a ∈ acc, a.source.toNat < IRQ_ISA_COUNT
  apart : acc.Pairwise fun a b => a.source ≠ b.source ∧ a.gsi ≠ b.gsi

theorem acceptIsos_ok (isos : List AcpiIso) : AcceptedOk (acceptIsos isos).1 := by
  -- The induction is on the overrides read so far, the last one first.
  induction isos using List.reverseRecOn with
  | nil => exact ⟨fun a ha => absurd ha not_mem_nil, Pairwise.nil⟩
  | append_singleton isos o ih =>
    rw [acceptIsos_concat]
    split_ifs with hok
    · refine ⟨fun a ha => ?_, pairwise_append.2 ⟨ih.apart, pairwise_singleton _ _, ?_⟩⟩
      · rcases mem_append.1 ha with ha | ha
        · exact ih.source_lt a ha
        · rw [mem_singleton.1 ha]
          exact hok.2.1
      · intro a ha b hb
        rw [mem_singleton.1 hb]
        exact hok.2.2 a ha
    · exact ih

/-- There is room for every accepted override. -/
theorem AcceptedOk.length_le {acc : List AcpiIso} (h : AcceptedOk acc) :
    acc.length ≤ IRQ_ISA_COUNT := by
  have hnodup : (acc.map fun a => a.source.toNat).Nodup := by
    refine pairwise_map.2 (h.apart.imp fun hab heq => hab.1 ?_)
    exact BitVec.eq_of_toNat_eq heq
  have hsub : (acc.map fun a => a.source.toNat).toFinset ⊆ Finset.range IRQ_ISA_COUNT := by
    intro x hx
    obtain ⟨a, ha, rfl⟩ := mem_map.1 (mem_toFinset.1 hx)
    exact Finset.mem_range.2 (h.source_lt a ha)
  calc acc.length = (acc.map fun a => a.source.toNat).toFinset.card := by
        rw [toFinset_card_of_nodup hnodup, length_map]
    _ ≤ (Finset.range IRQ_ISA_COUNT).card := Finset.card_le_card hsub
    _ = IRQ_ISA_COUNT := Finset.card_range _

/-- Two accepted overrides with one source, or with one GSI, are one. -/
theorem AcceptedOk.eq_of {acc : List AcpiIso} (h : AcceptedOk acc) {a b : AcpiIso} (ha : a ∈ acc)
    (hb : b ∈ acc) (hab : a.source = b.source ∨ a.gsi = b.gsi) : a = b := by
  by_contra hne
  have hsymm : Std.Symm fun a b : AcpiIso => a.source ≠ b.source ∧ a.gsi ≠ b.gsi :=
    ⟨fun _ _ hab => ⟨hab.1.symm, hab.2.symm⟩⟩
  have := h.apart.forall ha hb hne
  exact hab.elim this.1 this.2

/-! ## The route -/

/-- The status and the GSI of a route. -/
def isaGsi (isos : List AcpiIso) (irq : ℕ) : Status × Option ℕ :=
  ((irqCoreIsaRoute isos irq).1, (irqCoreIsaRoute isos irq).2.1.map fun r => r.gsi.toNat)

/-- A source with an accepted override has its GSI. -/
theorem isaGsi_of_accepted (ho : Accepted isos o) (hsource : o.source.toNat = irq) :
    isaGsi isos irq = (.ok, some o.gsi.toNat) := by
  have hok := acceptIsos_ok isos
  rw [← mem_acceptIsos] at ho
  have hirq : ¬ irq ≥ IRQ_ISA_COUNT := by
    rw [← hsource]
    exact Nat.not_le.2 (hok.source_lt o ho)
  have hmem : o ∈ (acceptIsos isos).1.filter fun a => a.source.toNat = irq :=
    mem_filter.2 ⟨ho, decide_eq_true hsource⟩
  -- Every match is the override itself, so the last one is.
  have hall : ∀ a ∈ (acceptIsos isos).1.filter fun a => a.source.toNat = irq, a = o := by
    intro a ha
    obtain ⟨ha, hs⟩ := mem_filter.1 ha
    refine hok.eq_of ha ho (.inl (BitVec.eq_of_toNat_eq ?_))
    rw [hsource, of_decide_eq_true hs]
  have hlast : ((acceptIsos isos).1.filter fun a => a.source.toNat = irq).getLast? = some o := by
    have hne := ne_nil_of_mem hmem
    rw [getLast?_eq_some_getLast hne, hall _ (getLast_mem hne)]
  have hnotEmpty : ¬ (((acceptIsos isos).1.filter fun a => a.source.toNat = irq).isEmpty = true ∧
      ((acceptIsos isos).1.any fun a => a.gsi.toNat = irq) = true) := fun h =>
    ne_nil_of_mem hmem (isEmpty_iff.1 h.1)
  rw [isaGsi, irqCoreIsaRoute, if_neg hirq]
  dsimp only
  rw [if_neg hnotEmpty, hlast]
  rfl

/-- A source without one has its own number, unless an accepted override has taken it. -/
theorem isaGsi_of_not_accepted (hirq : irq < IRQ_ISA_COUNT)
    (hno : ∀ o, Accepted isos o → o.source.toNat ≠ irq) : isaGsi isos irq =
      if (acceptIsos isos).1.any fun a => a.gsi.toNat = irq then (.errNotFound, none)
      else (.ok, some irq) := by
  have hempty : (acceptIsos isos).1.filter (fun a => a.source.toNat = irq) = [] :=
    filter_eq_nil_iff.2 fun a ha h => hno a (mem_acceptIsos.1 ha) (of_decide_eq_true h)
  rw [isaGsi, irqCoreIsaRoute, if_neg (Nat.not_le.2 hirq)]
  dsimp only
  rw [hempty]
  split_ifs with htaken hany hany
  · rfl
  · exact absurd htaken.2 hany
  · exact absurd ⟨rfl, hany⟩ htaken
  · have hlt : irq < 2^32 := hirq.trans (by decide)
    show (Status.ok, some (BitVec.ofNat 32 irq).toNat) = (.ok, some irq)
    rw [BitVec.toNat_ofNat, Nat.mod_eq_of_lt hlt]

/-- The routes of the ISA interrupts for a list of overrides. -/
structure IsaRoutes (isos : List AcpiIso) : Prop where
  /-- Two interrupts that are routed are routed apart. -/
  injective : ∀ irq irq' gsi, isaGsi isos irq = (.ok, some gsi) →
    isaGsi isos irq' = (.ok, some gsi) → irq = irq'
  accepted : ∀ o, Accepted isos o → isaGsi isos o.source.toNat = (.ok, some o.gsi.toNat)
  /-- A source without an accepted override has its own number, unless another one's has taken
  it. -/
  own : ∀ irq, irq < IRQ_ISA_COUNT → (∀ o, Accepted isos o → o.source.toNat ≠ irq) →
    isaGsi isos irq = (.ok, some irq) ∨ (isaGsi isos irq).1 = .errNotFound
  notFound : ∀ irq, irq < IRQ_ISA_COUNT → (∀ o, Accepted isos o → o.source.toNat ≠ irq) →
    ((isaGsi isos irq).1 = .errNotFound ↔
      ∃ o, Accepted isos o ∧ o.source.toNat ≠ irq ∧ o.gsi.toNat = irq)
  /-- Only these two statuses are possible for an ISA interrupt. -/
  routed : ∀ irq, irq < IRQ_ISA_COUNT → (isaGsi isos irq).1 = .ok ∨
    (isaGsi isos irq).1 = .errNotFound
  /-- Before every override that is accepted there is room in the table for it. -/
  room : ∀ seen o, seen ++ [o] <+: isos → Acceptable (acceptIsos seen).1 o →
    (acceptIsos seen).1.length < IRQ_ISA_COUNT

/-- What a route without an accepted override can be. -/
theorem isaGsi_own_cases (hirq : irq < IRQ_ISA_COUNT)
    (hno : ∀ o, Accepted isos o → o.source.toNat ≠ irq) :
    (∃ o, Accepted isos o ∧ o.gsi.toNat = irq) ∧ isaGsi isos irq = (.errNotFound, none) ∨
      (∀ o, Accepted isos o → o.gsi.toNat ≠ irq) ∧ isaGsi isos irq = (.ok, some irq) := by
  rw [isaGsi_of_not_accepted hirq hno]
  split_ifs with h
  · obtain ⟨a, ha, heq⟩ := any_eq_true.1 h
    exact .inl ⟨⟨a, mem_acceptIsos.1 ha, of_decide_eq_true heq⟩, rfl⟩
  · refine .inr ⟨fun o ho heq => h (any_eq_true.2 ⟨o, mem_acceptIsos.2 ho, ?_⟩), rfl⟩
    exact decide_eq_true heq

/-- A route that is given is that of an accepted override, or the source's own number where no
accepted override has it. -/
theorem isaGsi_eq_ok {gsi : ℕ} (h : isaGsi isos irq = (.ok, some gsi)) :
    (∃ o, Accepted isos o ∧ o.source.toNat = irq ∧ o.gsi.toNat = gsi) ∨
      irq = gsi ∧ ∀ o, Accepted isos o → o.gsi.toNat ≠ irq := by
  by_cases hacc : ∃ o, Accepted isos o ∧ o.source.toNat = irq
  · obtain ⟨o, ho, hsource⟩ := hacc
    rw [isaGsi_of_accepted ho hsource] at h
    cases h
    exact .inl ⟨o, ho, hsource, rfl⟩
  · have hno : ∀ o, Accepted isos o → o.source.toNat ≠ irq := fun o ho hs => hacc ⟨o, ho, hs⟩
    have hirq : irq < IRQ_ISA_COUNT := by
      by_contra hge
      rw [isaGsi, irqCoreIsaRoute, if_pos (Nat.not_lt.1 hge)] at h
      exact nomatch h
    obtain ⟨-, hcase⟩ | ⟨hfree, hcase⟩ := isaGsi_own_cases hirq hno
    · rw [hcase] at h
      exact nomatch h
    · rw [hcase] at h
      cases h
      exact .inr ⟨rfl, hfree⟩

/-- The routes are injective, whatever the firmware's list is. -/
theorem irqCoreIsaRoute_exact (isos : List AcpiIso) : IsaRoutes isos := by
  have hok := acceptIsos_ok isos
  refine ⟨fun irq irq' gsi h h' => ?_, fun o ho => isaGsi_of_accepted ho rfl,
    fun irq hirq hno => ?_, fun irq hirq hno => ?_, fun irq hirq => ?_, fun seen o _ hacc => ?_⟩
  · -- Both overridden, one of them, or neither.
    obtain ⟨o, ho, rfl, hg⟩ | ⟨rfl, hfree⟩ := isaGsi_eq_ok h <;>
      obtain ⟨o', ho', rfl, hg'⟩ | ⟨rfl, hfree'⟩ := isaGsi_eq_ok h'
    · rw [hok.eq_of (mem_acceptIsos.2 ho) (mem_acceptIsos.2 ho')
        (.inr (BitVec.eq_of_toNat_eq (hg.trans hg'.symm)))]
    · exact absurd hg (hfree' o ho)
    · exact absurd hg' (hfree o' ho')
    · rfl
  · obtain ⟨-, h⟩ | ⟨-, h⟩ := isaGsi_own_cases hirq hno
    · exact .inr (by rw [h])
    · exact .inl h
  · obtain ⟨⟨o, ho, hg⟩, h⟩ | ⟨hfree, h⟩ := isaGsi_own_cases hirq hno
    · rw [h]
      exact ⟨fun _ => ⟨o, ho, hno o ho, hg⟩, fun _ => rfl⟩
    · rw [h]
      refine ⟨fun h => (nomatch h), fun ⟨o, ho, _, hg⟩ => absurd hg (hfree o ho)⟩
  · by_cases hacc : ∃ o, Accepted isos o ∧ o.source.toNat = irq
    · obtain ⟨o, ho, hsource⟩ := hacc
      rw [isaGsi_of_accepted ho hsource]
      exact .inl rfl
    · obtain ⟨-, h⟩ | ⟨-, h⟩ := isaGsi_own_cases hirq fun o ho hs => hacc ⟨o, ho, hs⟩
      · exact .inr (by rw [h])
      · exact .inl (by rw [h])
  · -- After it there are at most 16 of them.
    have hlen := (acceptIsos_ok (seen ++ [o])).length_le
    rw [acceptIsos_concat, if_pos hacc, length_append, length_singleton] at hlen
    omega

/-- The overrides of a PC, with two that do not count: the timer a second time, and another bus. -/
def pcIsos : List AcpiIso := [⟨0, 0, 2, 0⟩, ⟨0, 9, 9, 13⟩, ⟨0, 0, 5, 0⟩, ⟨1, 3, 7, 0⟩]

theorem irqCoreIsaRoute_exact_pcIsos : isaGsi pcIsos 0 = (.ok, some 2) ∧
    (isaGsi pcIsos 2).1 = .errNotFound ∧ (isaGsi pcIsos 5).1 = .ok := by
  have hroutes := irqCoreIsaRoute_exact pcIsos
  have htimer : Accepted pcIsos ⟨0, 0, 2, 0⟩ := mem_acceptIsos.1 (by decide)
  have hsources : ∀ o ∈ (acceptIsos pcIsos).1, o.source.toNat ≠ 2 ∧ o.source.toNat ≠ 5 ∧
      o.gsi.toNat ≠ 5 := by decide
  refine ⟨hroutes.accepted _ htimer, ?_, ?_⟩
  · refine (hroutes.notFound 2 (by decide) fun o ho => (hsources o (mem_acceptIsos.2 ho)).1).2 ?_
    exact ⟨_, htimer, by decide, by decide⟩
  · refine (hroutes.routed 5 (by decide)).resolve_right fun hnone => ?_
    obtain ⟨o, ho, -, hgsi⟩ := (hroutes.notFound 5 (by decide) fun o ho =>
      (hsources o (mem_acceptIsos.2 ho)).2.1).1 hnone
    exact (hsources o (mem_acceptIsos.2 ho)).2.2 hgsi

/-! ## The pins of the IOAPICs -/

structure IrqGsiRange where
  (gsiBase pins : BitVec 32)

def IrqGsiRange.end (r : IrqGsiRange) : ℕ := r.gsiBase.toNat + r.pins.toNat

def irqCoreIoapicPins (versionReg : BitVec 32) : BitVec 32 := (versionReg >>> 16 &&& 0xFF) + 1

/-- The index of the range, and the pin. -/
def irqCoreGsiLookup (r : List IrqGsiRange) (gsi : BitVec 32) : Option (ℕ × BitVec 32) :=
  (r.findIdx? fun q => q.gsiBase ≤ gsi ∧ gsi.toNat < q.end).bind fun i =>
    r[i]?.map fun q => (i, gsi - q.gsiBase)

def irqCoreGsiOverlaps (r : List IrqGsiRange) (cand : IrqGsiRange) : Bool :=
  cand.pins = 0 ∨ ∃ q ∈ r, cand.gsiBase.toNat < q.end ∧ q.gsiBase.toNat < cand.end

/-- An IOAPIC of the MADT, with the answer of `vmmMapMmio` and its version register. -/
structure AcpiIoApic where
  (address gsiBase ver : BitVec 32)
  mapped : Bool

/-- The ranges of `ioapicInitAll` after one more IOAPIC: at most 16, of at most 120 pins. -/
def ioapicAdd (ranges : List IrqGsiRange) (a : AcpiIoApic) : List IrqGsiRange :=
  let pins := irqCoreIoapicPins a.ver
  let range : IrqGsiRange := ⟨a.gsiBase, if pins > 120 then 120 else pins⟩
  if ranges.length ≥ 16 ∨ a.address &&& 0xF ≠ 0 ∨ ¬ a.mapped ∨ irqCoreGsiOverlaps ranges range then
    ranges
  else ranges ++ [range]

def ioapicInitAll (madt : List AcpiIoApic) : List IrqGsiRange := madt.foldl ioapicAdd []

theorem ioapicInitAll_apart (madt : List AcpiIoApic) : (ioapicInitAll madt).Pairwise fun q r =>
    q.end ≤ r.gsiBase.toNat ∨ r.end ≤ q.gsiBase.toNat := by
  refine foldlRecOn madt ioapicAdd .nil fun ranges h a _ => ?_
  unfold ioapicAdd
  extract_lets pins range
  split_ifs with hskip
  · exact h
  · refine pairwise_append.2 ⟨h, pairwise_singleton _ _, fun q hq r hr => ?_⟩
    obtain rfl := mem_singleton.1 hr
    by_contra hno
    exact hskip (.inr (.inr (.inr (decide_eq_true (.inr ⟨q, hq, by omega⟩)))))

/-- **A GSI is one pin of one IOAPIC.** It is found there, and every pin is found under its GSI. -/
theorem irqCoreGsiLookup_exact (madt : List AcpiIoApic) (gsi pin : BitVec 32) (i : ℕ) :
    irqCoreGsiLookup (ioapicInitAll madt) gsi = some (i, pin) ↔
      ∃ q, (ioapicInitAll madt)[i]? = some q ∧ pin < q.pins ∧
        q.gsiBase.toNat + pin.toNat = gsi.toNat := by
  have hapart := pairwise_iff_getElem.1 (ioapicInitAll_apart madt)
  generalize ioapicInitAll madt = r at hapart
  simp only [irqCoreGsiLookup, Option.bind_eq_some_iff, Option.map_eq_some_iff, Prod.mk.injEq,
    findIdx?_eq_some_iff_getElem, decide_eq_true_eq, BitVec.le_def, BitVec.lt_def, BitVec.toNat_eq,
    BitVec.toNat_sub, IrqGsiRange.end] at hapart ⊢
  constructor
  · rintro ⟨i, ⟨hi, hgsi, -⟩, q, hq, rfl, hpin⟩
    obtain ⟨hi', rfl⟩ := List.getElem?_eq_some_iff.1 hq
    exact ⟨_, hq, by omega, by omega⟩
  · rintro ⟨q, hq, hpin, hsum⟩
    obtain ⟨hi, rfl⟩ := List.getElem?_eq_some_iff.1 hq
    refine ⟨i, ⟨hi, by omega, fun j hj hgsi => ?_⟩, _, hq, rfl, by omega⟩
    have := hapart j i (by omega) hi hj
    omega

end Bongos.Arch
