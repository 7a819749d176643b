import Bongos.BoundedLoop
import Bongos.Core.BootInfo

/-!
# The physical ranges that ACPI may map

`acpiPhysRangeAllowed` of `acpi-tables.c` moves a cursor over a range of physical addresses: over
the rest of the low memory, and over the rest of the first region of the memory map that has the
cursor. A round moves the cursor up, and over allowed bytes only, whatever the map holds
(`acpiRangeStep_eq_some`); it stops early at a byte that is not allowed, if no two regions have it
(`acpiRangeStep_eq_none`).
-/

namespace Bongos.Acpi

open BitVec (le_def lt_def toNat_add)
open Bongos.Core List

def ACPI_LOW_MEM_END : BitVec 64 := 0x100000

def typeAllowed (type : BitVec 32) : Bool :=
  type == BOOT_MEM_USABLE || type == BOOT_MEM_RESERVED || type == BOOT_MEM_ACPI_RECLAIM ||
    type == BOOT_MEM_ACPI_NVS

variable (map : List BootMemRegion)

/-- The loop over the regions: the first that has the cursor. -/
def regionAt (cur : BitVec 64) : Option BootMemRegion :=
  map.find? fun r => cur ≥ r.base && cur - r.base < r.length

/-- A round of the `while` loop of `acpiPhysRangeAllowed`. There is none when the cursor is at the
end, and none when the source returns `false`. -/
def acpiRangeStep («end» cur : BitVec 64) : Option (BitVec 64) :=
  if ¬ cur < «end» then none
  else if cur < ACPI_LOW_MEM_END then
    some (if «end» < ACPI_LOW_MEM_END then «end» else ACPI_LOW_MEM_END)
  else match regionAt map cur with
    | none => none
    | some hit =>
      if !typeAllowed hit.type then none
      else
        let regionEnd := hit.base + hit.length
        if regionEnd ≤ cur then none
        else some (if «end» < regionEnd then «end» else regionEnd)

/-- `acpiPhysRangeAllowed`: no answer if the loop takes more rounds than the range has bytes. -/
def acpiPhysRangeAllowed (phys len : BitVec 64) : Option Bool :=
  if len = 0 ∨ phys + len < phys then some false
  else (runLoop (acpiRangeStep map (phys + len)) (len.toNat + 1) phys).map fun cur =>
    !decide (cur < phys + len)

/-- A byte that may be mapped: it is in the low memory, or in a region of one of four types. -/
def ByteAllowed (map : List BootMemRegion) (x : ℕ) : Prop :=
  x < 0x100000 ∨ ∃ r ∈ map, (r.type = BOOT_MEM_USABLE ∨ r.type = BOOT_MEM_RESERVED ∨
    r.type = BOOT_MEM_ACPI_RECLAIM ∨ r.type = BOOT_MEM_ACPI_NVS) ∧
    r.base.toNat ≤ x ∧ x < r.base.toNat + r.length.toNat

variable {map : List BootMemRegion} {«end» cur next : BitVec 64} {r : BootMemRegion}

theorem typeAllowed_iff {type : BitVec 32} : typeAllowed type = true ↔ type = BOOT_MEM_USABLE ∨
    type = BOOT_MEM_RESERVED ∨ type = BOOT_MEM_ACPI_RECLAIM ∨ type = BOOT_MEM_ACPI_NVS := by
  simp only [typeAllowed, Bool.or_eq_true, beq_iff_eq, or_assoc]

/-- The test on a region asks whether it has the cursor. -/
theorem has_iff : (decide (cur ≥ r.base) && decide (cur - r.base < r.length)) = true ↔
    r.base.toNat ≤ cur.toNat ∧ cur.toNat < r.base.toNat + r.length.toNat := by
  rw [Bool.and_eq_true, decide_eq_true_eq, decide_eq_true_eq, ge_iff_le, le_def]
  refine and_congr_right fun hle => ?_
  rw [lt_def, BitVec.toNat_sub_of_le (le_def.2 hle)]
  omega

/-- The region that the loop finds is in the map and has the cursor. -/
theorem regionAt_eq_some (h : regionAt map cur = some r) : r ∈ map ∧
    r.base.toNat ≤ cur.toNat ∧ cur.toNat < r.base.toNat + r.length.toNat :=
  ⟨mem_of_find?_eq_some h, has_iff.1 (find?_some (p := fun r : BootMemRegion =>
    decide (cur ≥ r.base) && decide (cur - r.base < r.length)) h)⟩

/-- A round moves the cursor up, not past the end, and over allowed bytes. -/
theorem acpiRangeStep_eq_some (h : acpiRangeStep map «end» cur = some next) :
    cur.toNat < next.toNat ∧ next.toNat ≤ «end».toNat ∧
      ∀ x, cur.toNat ≤ x → x < next.toNat → ByteAllowed map x := by
  have hlow : ACPI_LOW_MEM_END.toNat = 0x100000 := rfl
  unfold acpiRangeStep at h
  by_cases hend : ¬ cur < «end»
  · rw [if_pos hend] at h
    cases h
  rw [if_neg hend] at h
  rw [not_not, lt_def] at hend
  split at h
  next hcur =>
    rw [lt_def] at hcur
    cases h
    split_ifs with hle <;> rw [lt_def] at hle <;>
      exact ⟨by omega, by omega, fun x _ hx => .inl (by omega)⟩
  next =>
    split at h
    · cases h
    next hit hhit =>
      obtain ⟨hmem, hle, hlt⟩ := regionAt_eq_some hhit
      split at h
      · cases h
      rename_i htype
      dsimp only at h
      split at h
      · cases h
      rename_i hwrap
      cases h
      rw [le_def, toNat_add] at hwrap
      -- The end of the region is after the cursor, so it was computed without a wrap.
      have hregion : (hit.base + hit.length).toNat = hit.base.toNat + hit.length.toNat := by
        rw [toNat_add]
        omega
      have hallowed : ∀ x, cur.toNat ≤ x → x < hit.base.toNat + hit.length.toNat →
          ByteAllowed map x :=
        fun x hx hx' => .inr ⟨hit, hmem, typeAllowed_iff.1 (by simpa using htype), by omega, hx'⟩
      split_ifs with hmin <;> rw [lt_def, hregion] at hmin
      · exact ⟨hend, le_rfl, fun x hx hx' => hallowed x hx (by omega)⟩
      · rw [hregion]
        exact ⟨by omega, by omega, hallowed⟩

/-- On an accepted map the loop returns `false` at a byte that is not allowed. -/
theorem acpiRangeStep_eq_none (hmap : MemMapOk map) (hend : cur < «end»)
    (h : acpiRangeStep map «end» cur = none) : ¬ ByteAllowed map cur.toNat := by
  unfold acpiRangeStep at h
  rw [if_neg (not_not.2 hend)] at h
  split_ifs at h with hcur
  rintro (hlow | ⟨r, hr, htype, hin⟩)
  · exact hcur (lt_def.2 hlow)
  split at h
  next hnone => exact absurd (has_iff.2 hin) (find?_eq_none.1 hnone r hr)
  next hit hhit =>
    obtain ⟨hmem, hhas⟩ := regionAt_eq_some hhit
    obtain rfl := hmap.region_unique hr hmem hin hhas
    rw [typeAllowed_iff.2 htype] at h
    simp only [Bool.not_true, Bool.false_eq_true, if_false] at h
    split_ifs at h with hwrap
    rw [le_def, (hmap.region r hr).toNat_end] at hwrap
    omega

/-- The loop ends within as many rounds as the range has bytes, with allowed bytes behind the
cursor. -/
theorem exists_acpiRangeRun (map : List BootMemRegion) («end» phys : BitVec 64) {n : ℕ}
    (hn : «end».toNat - phys.toNat < n) :
    ∃ cur, runLoop (acpiRangeStep map «end») n phys = some cur ∧
      acpiRangeStep map «end» cur = none ∧ phys.toNat ≤ cur.toNat ∧
      ∀ x, phys.toNat ≤ x → x < cur.toNat → ByteAllowed map x := by
  refine exists_runLoop (μ := fun cur : BitVec 64 => «end».toNat - cur.toNat) (P := fun cur =>
    phys.toNat ≤ cur.toNat ∧ ∀ x, phys.toNat ≤ x → x < cur.toNat → ByteAllowed map x)
    (fun {cur next} ⟨hle, hbehind⟩ hstep => ?_)
    ⟨le_rfl, fun x hx hx' => absurd hx (not_le.2 hx')⟩ hn
  obtain ⟨hlt, hend, hnext⟩ := acpiRangeStep_eq_some hstep
  refine ⟨⟨by omega, fun x hx hx' => ?_⟩, by omega⟩
  rcases Nat.lt_or_ge x cur.toNat with hold | hnew
  · exact hbehind x hx hold
  · exact hnext x hnew hx'

/-- **The range policy is exact.** `acpiPhysRangeAllowed` answers for every array of regions. For an
array that `bootMemMapCheck` accepts it answers `true` for exactly the ranges that are not empty, do
not wrap, and have allowed bytes only. -/
theorem acpiPhysRangeAllowed_exact (map : List BootMemRegion) (phys len : BitVec 64) :
    ∃ allowed, acpiPhysRangeAllowed map phys len = some allowed ∧
      (bootMemMapCheck map = .ok () → (allowed = true ↔ 0 < len.toNat ∧
        phys.toNat + len.toNat ≤ 2^64 - 1 ∧
        ∀ x, phys.toNat ≤ x → x < phys.toNat + len.toNat → ByteAllowed map x)) := by
  unfold acpiPhysRangeAllowed
  by_cases hbad : len = 0 ∨ phys + len < phys
  · rw [if_pos hbad]
    refine ⟨false, rfl, fun _ => iff_of_false Bool.false_ne_true fun ⟨hpos, hle, _⟩ => ?_⟩
    rcases hbad with rfl | hwrap
    · exact absurd hpos (Nat.lt_irrefl 0)
    · rw [lt_def, toNat_add] at hwrap
      omega
  rw [if_neg hbad]
  rw [not_or, lt_def, toNat_add] at hbad
  have hpos : 0 < len.toNat := Nat.pos_of_ne_zero fun h => hbad.1 (BitVec.eq_of_toNat_eq h)
  have hend : (phys + len).toNat = phys.toNat + len.toNat := by
    rw [toNat_add]
    omega
  obtain ⟨cur, hrun, hstop, hle, hbehind⟩ :=
    exists_acpiRangeRun map (phys + len) phys (n := len.toNat + 1) (by omega)
  refine ⟨_, by rw [hrun]; rfl, fun hcheck => ?_⟩
  rw [Bool.not_eq_true', decide_eq_false_iff_not, lt_def, hend]
  constructor
  · exact fun hover => ⟨hpos, by omega, fun x hx hx' => hbehind x hx (by omega)⟩
  · rintro ⟨-, -, hall⟩ hlt
    have hmap := (bootMemMapCheck_eq_ok map).1 hcheck
    exact acpiRangeStep_eq_none hmap (lt_def.2 (hend ▸ hlt)) hstop (hall cur.toNat hle hlt)

/-- Tables that lie across the end of the low memory and two regions that touch. -/
theorem acpiPhysRangeAllowed_exact_touching :
    let map : List BootMemRegion := [⟨0x100000, 0x1000, BOOT_MEM_ACPI_RECLAIM, 0⟩,
      ⟨0x101000, 0x1000, BOOT_MEM_ACPI_NVS, 0⟩, ⟨0x103000, 0x1000, BOOT_MEM_USABLE, 0⟩]
    bootMemMapCheck map = .ok () ∧ acpiPhysRangeAllowed map 0xFF800 0x2800 = some true ∧
      ∀ x, 0xFF800 ≤ x → x < 0x102000 → ByteAllowed map x := by
  intro map
  have hcheck : bootMemMapCheck map = .ok () := by rfl
  have hrun : acpiPhysRangeAllowed map 0xFF800 0x2800 = some true := by decide +kernel
  obtain ⟨allowed, hallowed, hiff⟩ := acpiPhysRangeAllowed_exact map 0xFF800 0x2800
  obtain rfl := Option.some.inj (hrun.symm.trans hallowed)
  exact ⟨hcheck, hrun, ((hiff hcheck).1 rfl).2.2⟩

end Bongos.Acpi
