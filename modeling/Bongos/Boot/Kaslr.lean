import Bongos.Boot.Elf
import Mathlib.Algebra.Order.Floor.Div
import Mathlib.Data.BitVec
import Mathlib.Data.Set.Card
import Mathlib.Order.Interval.Finset.Nat
import Mathlib.Tactic.Linarith
import Mathlib.Tactic.Qify

/-!
# The slide of the kernel

`bootKaslrPickSlide` hashes the loader's seed and scales the upper half of the hash to the slots
that keep the image inside the kernel window. The hash is a bijection in every word of the seed, and
the scaling cuts the hashes into runs that differ in length by at most one upper half. So every slot
is selected by nearly the same number of values of any one word
(`bootKaslrPickSlide_valid_uniform`).
-/

namespace Bongos.Boot

open BitVec (le_def lt_def toNat_add toNat_and toNat_inj toNat_ofNat toNat_sub_of_le
  toNat_ushiftRight xor_zero)
open List

open Function (update update_of_ne update_self)

/-! ## The source -/

def BOOT_KASLR_ALIGN : BitVec 64 := 0x200000

def BOOT_KASLR_WINDOW : BitVec 64 := 0x20000000

def mix64 (z : BitVec 64) : BitVec 64 :=
  let z := (z ^^^ (z >>> 30)) * 0xBF58476D1CE4E5B9
  let z := (z ^^^ (z >>> 27)) * 0x94D049BB133111EB
  z ^^^ (z >>> 31)

/-- `leU64` of the bytes at `p`. -/
def leU64 (p : ℕ → BitVec 8) : BitVec 64 :=
  (List.range 8).foldr (fun i v => (v <<< 8) ||| (p i).setWidth 64) 0

/-- `h` of `bootKaslrPickSlide` after its loop. -/
def kaslrHash (seed : ℕ → BitVec 8) : BitVec 64 :=
  (List.range 8).foldl (fun h i => mix64 (h ^^^ leU64 fun k => seed (8 * i + k))) 0x4B41534C52534C44

/-- `slots` of `bootKaslrPickSlide`. -/
def kaslrSlots (span : BitVec 64) : BitVec 64 :=
  ((BOOT_KASLR_WINDOW - bootAlignUp span BOOT_KASLR_ALIGN) >>> 21) + 1

/-- `bootKaslrPickSlide`: the slide, or the status that it returns. -/
def bootKaslrPickSlide (seed : ℕ → BitVec 8) (span : BitVec 64) : Except BootStatus (BitVec 64) :=
  if span = 0 ∨ span > BOOT_KASLR_WINDOW then .error .errElfRange
  else if bootAlignUp span BOOT_KASLR_ALIGN > BOOT_KASLR_WINDOW then .error .errElfRange
  else
    let slot := (((kaslrHash seed >>> 32).setWidth 32).setWidth 64 * kaslrSlots span) >>> 32
    .ok (slot <<< 21)

/-- The range check of `elfRelocate` refuses the slide. -/
def relocRangeBad (img : ElfImage) (slide : BitVec 64) : Prop :=
  let windowRoom := BOOTINFO_KERNEL_WINDOW_END - img.linkBase
  slide &&& (4096 - 1) ≠ 0 ∨ img.linkBase < BOOTINFO_KERNEL_WINDOW_BASE ∨
    img.linkBase ≥ BOOTINFO_KERNEL_WINDOW_END ∨ img.span > windowRoom ∨
      slide > windowRoom - img.span

instance (img : ElfImage) (slide : BitVec 64) : Decidable (relocRangeBad img slide) :=
  inferInstanceAs (Decidable (_ ∨ _ ∨ _ ∨ _ ∨ _))

/-- The checks of `bootInfoCheckHeader` on the slide of the running kernel; the error is the
reason. -/
def bootInfoCheckSlide (kaslrSlide kernelSize kernelVirtBase kernelImageStart : BitVec 64) :
    Except String Unit :=
  if kaslrSlide % BOOT_KASLR_ALIGN ≠ 0 then .error "kaslrSlide is not 2 MiB aligned"
  else if kernelSize > BOOT_KASLR_WINDOW then
    .error "kernel image exceeds the kernel window (kernelSize too large)"
  else if kaslrSlide >
    BOOT_KASLR_WINDOW - ((kernelSize + BOOT_KASLR_ALIGN - 1) &&& ~~~ (BOOT_KASLR_ALIGN - 1))
    then .error "kernel image exceeds the kernel window (kaslrSlide too large)"
  else if kernelVirtBase ≠ kernelImageStart then
    .error "kernelVirtBase does not match kernelImageStart"
  else if kernelVirtBase - kaslrSlide ≠ BOOTINFO_KERNEL_WINDOW_BASE then
    .error "kernelVirtBase - kaslrSlide does not match the kernel link base"
  else .ok ()

/-! ## The hash is a bijection in every word -/

variable {j slot : ℕ} {span slide : BitVec 64}

/-- What is folded in at one place is not lost, if no step loses anything. -/
theorem injective_foldl_update {α β : Type*} {f : β → α → β}
    (hstate : ∀ a, Function.Injective (f · a)) (hword : ∀ b, Function.Injective (f b))
    (words : ℕ → α) {l : List ℕ} (hl : l.Nodup) (hj : j ∈ l)
    (b : β) : Function.Injective fun w => l.foldl (fun h i => f h (update words j w i)) b := by
  have hinit : ∀ l : List ℕ, Function.Injective fun b => l.foldl (fun h i => f h (words i)) b := by
    intro l
    induction l with
    | nil => exact Function.injective_id
    | cons i l ih => exact ih.comp (hstate (words i))
  induction l generalizing b with
  | nil => exact absurd hj not_mem_nil
  | cons i l ih =>
    obtain ⟨hi, hl⟩ := nodup_cons.1 hl
    by_cases hij : i = j
    · -- The place is here, and the rest of the list does not have it.
      subst hij
      have hrest : ∀ w b, l.foldl (fun h k => f h (update words i w k)) b
          = l.foldl (fun h k => f h (words k)) b := by
        intro w b
        refine foldl_ext _ _ _ fun h k hk => ?_
        rw [update_of_ne (ne_of_mem_of_not_mem hk hi)]
      simp only [foldl_cons, update_self, hrest]
      exact (hinit l).comp (hword b)
    · simp only [foldl_cons, update_of_ne hij]
      exact ih hl ((mem_cons.1 hj).resolve_left (Ne.symm hij)) _

/-- A word is determined by its xor with its own upper bits. -/
theorem injective_xorShift {k : ℕ} (hk : 0 < k) :
    Function.Injective fun z : BitVec 64 => z ^^^ (z >>> k) := by
  intro x y h
  -- The difference of two such words would be its own quotient by a power of two.
  have hd : x ^^^ y = (x ^^^ y) >>> k := by
    have h' : x ^^^ (x >>> k) = y ^^^ (y >>> k) := h
    rw [BitVec.ushiftRight_xor_distrib]
    calc x ^^^ y = (x ^^^ (x >>> k)) ^^^ (x >>> k) ^^^ y := by
          rw [BitVec.xor_assoc x, BitVec.xor_self, xor_zero]
      _ = y ^^^ (y >>> k) ^^^ (x >>> k) ^^^ y := by rw [h']
      _ = (x >>> k) ^^^ (y >>> k) := by
        rw [BitVec.xor_comm y, BitVec.xor_assoc _ y, BitVec.xor_comm y, ← BitVec.xor_assoc,
          BitVec.xor_assoc, BitVec.xor_self, xor_zero, BitVec.xor_comm]
  have hnat := congrArg BitVec.toNat hd
  rw [toNat_ushiftRight, Nat.shiftRight_eq_div_pow] at hnat
  have hzero : (x ^^^ y).toNat = 0 := by
    by_contra hne
    have hlt := Nat.div_lt_self (Nat.pos_of_ne_zero hne) (Nat.one_lt_two_pow hk.ne')
    omega
  exact BitVec.xor_eq_zero_iff.1 (BitVec.eq_of_toNat_eq hzero)

/-- Multiplication by a word that has an inverse loses nothing. -/
theorem injective_mul_of_mul_eq_one {c c' : BitVec 64} (h : c * c' = 1#64) :
    Function.Injective fun z : BitVec 64 => z * c := by
  intro x y hxy
  have hmul := congrArg (· * c') hxy
  simpa only [BitVec.mul_assoc, h, BitVec.mul_one] using hmul

theorem mix64_injective : Function.Injective mix64 := by
  have h1 :=
    injective_mul_of_mul_eq_one (show 0xBF58476D1CE4E5B9 * 0x96DE1B173F119089 = 1#64 by decide)
  have h2 :=
    injective_mul_of_mul_eq_one (show 0x94D049BB133111EB * 0x319642B2D24D8EC3 = 1#64 by decide)
  exact (injective_xorShift (by decide)).comp <| h2.comp <|
    (injective_xorShift (by decide)).comp <| h1.comp <| injective_xorShift (by decide)

/-- The seed whose words are given. -/
def seedOf (words : ℕ → BitVec 64) (k : ℕ) : BitVec 8 :=
  (words (k / 8) >>> (8 * (k % 8))).setWidth 8

/-- The bytes of a word, put together again. -/
theorem leU64_bytes (w : BitVec 64) : leU64 (fun k => (w >>> (8 * k)).setWidth 8) = w := by
  have hbyte : ∀ x : BitVec 64, (x >>> 8 <<< 8) ||| (x.setWidth 8).setWidth 64 = x := by
    intro x
    refine BitVec.eq_of_getLsbD_eq fun i hi => ?_
    by_cases h8 : i < 8
    · simp [h8, hi]
    · simp [h8, hi, Nat.add_sub_cancel' (Nat.le_of_not_lt h8)]
  -- From the top: after the bytes from `n` on the word is the one shifted by `n` bytes.
  have hfold : ∀ n, (List.range n).foldr
      (fun i (v : BitVec 64) =>
        (v <<< 8) ||| ((w >>> (8 * i)).setWidth 8).setWidth 64) (w >>> (8 * n)) = w := by
    intro n
    induction n with
    | zero => exact BitVec.ushiftRight_zero w
    | succ n ih =>
      have hstep := hbyte (w >>> (8 * n))
      rw [← BitVec.shiftRight_add] at hstep
      rw [range_succ, foldr_append, foldr_cons, foldr_nil, Nat.mul_succ, hstep, ih]
  have hzero : w >>> (8 * 8) = 0 := BitVec.ushiftRight_eq_zero (by decide)
  rw [leU64, ← hzero]
  exact hfold 8

theorem kaslrHash_seedOf (words : ℕ → BitVec 64) :
    kaslrHash (seedOf words) =
      (List.range 8).foldl (fun h i => mix64 (h ^^^ words i)) 0x4B41534C52534C44 := by
  refine foldl_ext _ _ _ fun h i _ => ?_
  have hword : (leU64 fun k => seedOf words (8 * i + k)) = leU64 fun k =>
      (words i >>> (8 * k)).setWidth 8 := by
    refine foldr_ext _ _ _ fun k hk v => ?_
    have hk := mem_range.1 hk
    simp only [seedOf, show (8 * i + k) / 8 = i by omega, show (8 * i + k) % 8 = k by omega]
  rw [hword, leU64_bytes]

instance finite_bitVec : Finite (BitVec 64) :=
  Finite.of_equiv _ (BitVec.equivFin (m := 64)).symm.toEquiv

/-- Every hash comes from one value of any one word. -/
theorem kaslrHash_bijective (words : ℕ → BitVec 64) (hj : j < 8) :
    Function.Bijective fun w => kaslrHash (seedOf (update words j w)) := by
  simp only [kaslrHash_seedOf]
  refine Finite.injective_iff_bijective.1 (injective_foldl_update (f := fun h w => mix64 (h ^^^ w))
    ?_ ?_ words nodup_range (mem_range.2 hj) _)
  · exact fun w => mix64_injective.comp fun x y h => (BitVec.xor_left_inj w).1 h
  · exact fun h => mix64_injective.comp fun x y h' => (BitVec.xor_right_inj h).1 h'

/-! ## The scaling to the slots -/

/-- The words between two numbers. -/
theorem ncard_words {lo hi : ℕ} (hhi : hi ≤ 2^64) :
    {h : BitVec 64 | lo ≤ h.toNat ∧ h.toNat < hi}.ncard = hi - lo := by
  have himage : {h : BitVec 64 | lo ≤ h.toNat ∧ h.toNat < hi}
      = (BitVec.ofNat 64) '' (Finset.Ico lo hi : Set ℕ) := by
    ext h
    simp only [Set.mem_ofPred_eq, Set.mem_image, Finset.coe_Ico, Set.mem_Ico]
    constructor
    · exact fun hh => ⟨h.toNat, hh, by simp⟩
    · rintro ⟨n, hn, rfl⟩
      rwa [toNat_ofNat, Nat.mod_eq_of_lt (by omega)]
  rw [himage, Set.InjOn.ncard_image, Set.ncard_coe_finset, Nat.card_Ico]
  intro a ha b hb hab
  have hab := congrArg BitVec.toNat hab
  rw [Finset.coe_Ico, Set.mem_Ico] at ha hb
  rwa [toNat_ofNat, toNat_ofNat, Nat.mod_eq_of_lt (by omega), Nat.mod_eq_of_lt (by omega)] at hab

/-- The hashes of one of `n` slots are nearly one part in `n`. -/
theorem ncard_slot {n : ℕ} (hslot : slot < n) (hn : n ≤ 2^32) :
    |(({h : BitVec 64 | h.toNat / 2^32 * n / 2^32 = slot}.ncard : ℕ) : ℚ) - 2^64 / n| < 2^32 := by
  have hpos : 0 < n := by omega
  -- The upper halves of a slot are those from `a` to `b`.
  obtain ⟨a, ha⟩ : ∃ a, a = (slot * 2^32) ⌈/⌉ n := ⟨_, rfl⟩
  obtain ⟨b, hb⟩ : ∃ b, b = ((slot + 1) * 2^32) ⌈/⌉ n := ⟨_, rfl⟩
  have ha' : ∀ r, a ≤ r ↔ slot * 2^32 ≤ n * r := fun r => ha ▸ ceilDiv_le_iff_le_mul hpos
  have hb' : ∀ r, b ≤ r ↔ (slot + 1) * 2^32 ≤ n * r := fun r => hb ▸ ceilDiv_le_iff_le_mul hpos
  have hset : {h : BitVec 64 | h.toNat / 2^32 * n / 2^32 = slot}
      = {h : BitVec 64 | a * 2^32 ≤ h.toNat ∧ h.toNat < b * 2^32} := by
    ext h
    have hlo : a ≤ h.toNat / 2^32 ↔ a * 2^32 ≤ h.toNat := Nat.le_div_iff_mul_le (by decide)
    have hhi : h.toNat / 2^32 < b ↔ h.toNat < b * 2^32 := Nat.div_lt_iff_lt_mul (by decide)
    have hslot : h.toNat / 2^32 * n / 2^32 = slot ↔
        slot * 2^32 ≤ n * (h.toNat / 2^32) ∧ n * (h.toNat / 2^32) < (slot + 1) * 2^32 := by
      rw [Nat.mul_comm n, Nat.div_eq_iff (by decide)]
      omega
    rw [Set.mem_ofPred_eq, Set.mem_ofPred_eq, ← hlo, ← hhi, hslot, ← ha', ← Nat.not_le,
      ← Nat.not_le, ← hb']
  have hb₁ : b * 2^32 ≤ 2^64 :=
    Nat.mul_le_mul_right (2^32) ((hb' _).2 (Nat.mul_le_mul_right _ hslot))
  rw [hset, ncard_words hb₁]
  -- Rounding up adds less than `n` to the product with `n`.
  have hceil : ∀ {x c : ℕ}, (∀ r, c ≤ r ↔ x ≤ n * r) → x ≤ n * c ∧ n * c < x + n := by
    intro x c hc
    refine ⟨(hc c).1 le_rfl, ?_⟩
    cases c with
    | zero => omega
    | succ c =>
      have hlt := mt (hc c).2 (Nat.not_succ_le_self c)
      rw [Nat.mul_succ]
      omega
  obtain ⟨ha₁, ha₂⟩ := hceil ha'
  obtain ⟨hb₁, hb₂⟩ := hceil hb'
  have hab : a ≤ b := (ha' b).2 ((Nat.mul_le_mul_right _ (Nat.le_succ slot)).trans hb₁)
  have hn₀ : (0 : ℚ) < n := by exact_mod_cast hpos
  have hq : (2^64 : ℚ) / n * n = 2^64 := div_mul_cancel₀ _ hn₀.ne'
  qify at ha₁ ha₂ hb₁ hb₂
  rw [← Nat.sub_mul]
  push_cast [hab]
  rw [abs_lt]
  refine ⟨lt_of_mul_lt_mul_right ?_ hn₀.le, lt_of_mul_lt_mul_right ?_ hn₀.le⟩ <;>
    rw [sub_mul, hq] <;> linarith

/-! ## The slide -/

theorem toNat_bootAlignUp_align (h : span.toNat ≤ 0x20000000) :
    (bootAlignUp span BOOT_KASLR_ALIGN).toNat = (span.toNat + 0x1FFFFF) / 0x200000 * 0x200000 := by
  have hmask : (~~~ (BOOT_KASLR_ALIGN - 1)).toNat = 2^64 - 2^21 := by decide
  have hsum : (span + (BOOT_KASLR_ALIGN - 1)).toNat = span.toNat + 0x1FFFFF := by
    rw [toNat_add, show (BOOT_KASLR_ALIGN - 1).toNat = 0x1FFFFF by decide]
    exact Nat.mod_eq_of_lt (by omega)
  rw [bootAlignUp, toNat_and, hmask, land_two_pow_sub (by decide) (BitVec.isLt _), hsum]
  rfl

/-- The number of multiples of 2 MiB at which an image of the span, rounded up to 2 MiB, fits in the
window of 512 MiB. -/
def slotCount (span : ℕ) : ℕ := 257 - (span + 0x1FFFFF) / 0x200000

theorem slotCount_le {n : ℕ} (h : 1 ≤ n) : slotCount n ≤ 256 := by
  unfold slotCount
  omega

/-- The slots are those at which the rounded image fits. -/
theorem toNat_kaslrSlots (h : span.toNat ≤ 0x20000000) :
    (kaslrSlots span).toNat = slotCount span.toNat := by
  have hup := toNat_bootAlignUp_align h
  have hwindow : BOOT_KASLR_WINDOW.toNat = 0x20000000 := by decide
  have hle : bootAlignUp span BOOT_KASLR_ALIGN ≤ BOOT_KASLR_WINDOW := by
    rw [le_def, hup, hwindow]
    omega
  have h1 : (1 : BitVec 64).toNat = 1 := by decide
  rw [kaslrSlots, toNat_add, toNat_ushiftRight, toNat_sub_of_le hle, hup, hwindow, h1,
    Nat.shiftRight_eq_div_pow, slotCount]
  omega

/-- `slot << 21`: nothing is cut off. -/
theorem toNat_slide (h slots : BitVec 64) (hslots : slots.toNat ≤ 256) :
    (((((h >>> 32).setWidth 32).setWidth 64 * slots) >>> 32) <<< 21).toNat
      = h.toNat / 2^32 * slots.toNat / 2^32 * 0x200000 := by
  have hhalf : (((h >>> 32).setWidth 32).setWidth 64 : BitVec 64).toNat = h.toNat / 2^32 := by
    rw [BitVec.toNat_setWidth, BitVec.toNat_setWidth, toNat_ushiftRight, Nat.shiftRight_eq_div_pow]
    omega
  have hmul : h.toNat / 2^32 * slots.toNat ≤ 2^32 * 256 := Nat.mul_le_mul (by omega) hslots
  rw [BitVec.toNat_shiftLeft, toNat_ushiftRight,
    BitVec.toNat_mul_of_lt (by rw [hhalf]; omega), hhalf, Nat.shiftRight_eq_div_pow,
      Nat.shiftLeft_eq]
  exact Nat.mod_eq_of_lt (by omega)

/-- The slide for an image that fits: the slot of the hash, in units of 2 MiB. -/
theorem bootKaslrPickSlide_eq (seed : ℕ → BitVec 8) (h1 : 1 ≤ span.toNat)
    (h2 : span.toNat ≤ 0x20000000) : ∃ slide, bootKaslrPickSlide seed span = .ok slide ∧
      slide.toNat = (kaslrHash seed).toNat / 2^32 * slotCount span.toNat / 2^32 * 0x200000 := by
  have hwindow : BOOT_KASLR_WINDOW.toNat = 0x20000000 := by decide
  have hspan : ¬ (span = 0 ∨ span > BOOT_KASLR_WINDOW) := by
    rintro (rfl | hlt)
    · exact absurd h1 (by decide)
    · rw [gt_iff_lt, lt_def, hwindow] at hlt
      omega
  have hneed : ¬ bootAlignUp span BOOT_KASLR_ALIGN > BOOT_KASLR_WINDOW := by
    rw [gt_iff_lt, lt_def, toNat_bootAlignUp_align h2, hwindow]
    omega
  have hslots := toNat_kaslrSlots h2
  rw [bootKaslrPickSlide, if_neg hspan, if_neg hneed, ← hslots]
  exact ⟨_, rfl, toNat_slide _ _ (hslots.trans_le (slotCount_le h1))⟩

/-- A slide of whole 2 MiB that keeps the rounded image in the window. -/
structure SlideFits (span slide : BitVec 64) : Prop where
  aligned : 0x200000 ∣ slide.toNat
  fits : slide.toNat + (span.toNat + 0x1FFFFF) / 0x200000 * 0x200000 ≤ 0x20000000

theorem slideFits (h2 : span.toNat ≤ 0x20000000) {h : BitVec 64}
    (hslide : slide.toNat = h.toNat / 2^32 * slotCount span.toNat / 2^32 * 0x200000) :
    SlideFits span slide := by
  have hslots : slotCount span.toNat = 257 - (span.toNat + 0x1FFFFF) / 0x200000 := rfl
  have hlt : h.toNat / 2^32 * slotCount span.toNat / 2^32 < slotCount span.toNat := by
    rw [Nat.div_lt_iff_lt_mul (by decide), Nat.mul_comm _ (2^32)]
    exact Nat.mul_lt_mul_of_pos_right (by omega) (by omega)
  refine ⟨⟨_, hslide.trans (Nat.mul_comm _ _)⟩, ?_⟩
  omega

/-- The range check of `elfRelocate` accepts the slide for an image at the base of the window. -/
theorem SlideFits.not_relocRangeBad {img : ElfImage} (h : SlideFits img.span slide)
    (hbase : img.linkBase = BOOTINFO_KERNEL_WINDOW_BASE) : ¬ relocRangeBad img slide := by
  obtain ⟨⟨k, hk⟩, hfits⟩ := h
  have hroom : BOOTINFO_KERNEL_WINDOW_END - img.linkBase = 0x20000000 := by
    rw [hbase]
    decide
  have hmask : slide &&& (4096 - 1) = 0 := by
    refine BitVec.eq_of_toNat_eq ?_
    rw [toNat_and, show (4096 - 1 : BitVec 64).toNat = 2^12 - 1 by decide,
      Nat.and_two_pow_sub_one_eq_mod, hk]
    exact show _ = 0 by omega
  have h29 : (0x20000000 : BitVec 64).toNat = 0x20000000 := by decide
  have hspan : img.span ≤ 0x20000000 := by
    rw [le_def, h29]
    omega
  rw [relocRangeBad, hroom, hbase]
  rintro (hbad | hbad | hbad | hbad | hbad)
  · exact hbad hmask
  · exact absurd hbad (by decide)
  · exact absurd hbad (by decide)
  · exact absurd hspan (BitVec.not_le.2 hbad)
  · rw [gt_iff_lt, lt_def, toNat_sub_of_le hspan, h29] at hbad
    omega

/-- The kernel accepts the slide that it runs at. -/
theorem SlideFits.bootInfoCheckSlide_eq (h : SlideFits span slide) :
    bootInfoCheckSlide slide span (BOOTINFO_KERNEL_WINDOW_BASE + slide)
      (BOOTINFO_KERNEL_WINDOW_BASE + slide) = .ok () := by
  obtain ⟨⟨k, hk⟩, hfits⟩ := h
  have hwindow : BOOT_KASLR_WINDOW.toNat = 0x20000000 := by decide
  have hneeded : (span + BOOT_KASLR_ALIGN - 1) &&& ~~~ (BOOT_KASLR_ALIGN - 1) =
      bootAlignUp span BOOT_KASLR_ALIGN := by
    rw [bootAlignUp, add_sub_assoc]
  have hup := toNat_bootAlignUp_align (show span.toNat ≤ 0x20000000 by omega)
  have hmod : ¬ slide % BOOT_KASLR_ALIGN ≠ 0 := by
    rw [not_not, ← toNat_inj, BitVec.toNat_umod, hk]
    exact Nat.mul_mod_right _ _
  have hspan : ¬ span > BOOT_KASLR_WINDOW := by
    rw [gt_iff_lt, lt_def, hwindow]
    omega
  have hle : bootAlignUp span BOOT_KASLR_ALIGN ≤ BOOT_KASLR_WINDOW := by
    rw [le_def, hup, hwindow]
    omega
  have hroom : ¬ slide > BOOT_KASLR_WINDOW - bootAlignUp span BOOT_KASLR_ALIGN := by
    rw [gt_iff_lt, lt_def, toNat_sub_of_le hle, hup, hwindow]
    omega
  rw [bootInfoCheckSlide, if_neg hmod, if_neg hspan, hneeded, if_neg hroom, if_neg (not_not.2 rfl),
    if_neg (not_not.2 (BitVec.add_sub_cancel _ _))]

/-- The selection of the slide is sound for the loader and the kernel, and in every word of the seed
nearly uniform over the slots. -/
structure SlideSelection : Prop where
  valid : ∀ (seed : ℕ → BitVec 8) {span : BitVec 64}, 1 ≤ span.toNat → span ≤ BOOT_KASLR_WINDOW →
    ∃ slide, bootKaslrPickSlide seed span = .ok slide ∧ 0x200000 ∣ slide.toNat ∧
      BOOTINFO_KERNEL_WINDOW_BASE.toNat + slide.toNat + span.toNat ≤
        BOOTINFO_KERNEL_WINDOW_END.toNat ∧
      (∀ img : ElfImage, img.linkBase = BOOTINFO_KERNEL_WINDOW_BASE → img.span = span →
        ¬ relocRangeBad img slide) ∧
      bootInfoCheckSlide slide span (BOOTINFO_KERNEL_WINDOW_BASE + slide)
        (BOOTINFO_KERNEL_WINDOW_BASE + slide) = .ok ()
  uniform : ∀ (words : ℕ → BitVec 64) {j : ℕ}, j < 8 → ∀ {span : BitVec 64}, 1 ≤ span.toNat →
    span ≤ BOOT_KASLR_WINDOW → ∀ {slot : ℕ}, slot < slotCount span.toNat →
      |(({w | bootKaslrPickSlide (seedOf (update words j w)) span
        = .ok (BitVec.ofNat 64 slot <<< 21)}.ncard : ℕ) : ℚ) - 2^64 / slotCount span.toNat| < 2^32
  reachable : ∀ (words : ℕ → BitVec 64) {j : ℕ}, j < 8 → ∀ {span : BitVec 64}, 1 ≤ span.toNat →
    span ≤ BOOT_KASLR_WINDOW → ∀ {slot : ℕ}, slot < slotCount span.toNat →
      ∃ w, bootKaslrPickSlide (seedOf (update words j w)) span = .ok (BitVec.ofNat 64 slot <<< 21)

/-- The values of one word that select a slot. -/
theorem ncard_select (words : ℕ → BitVec 64) (hj : j < 8) (h1 : 1 ≤ span.toNat)
    (h2 : span.toNat ≤ 0x20000000) (hslot : slot < slotCount span.toNat) :
    |(({w | bootKaslrPickSlide (seedOf (update words j w)) span
      = .ok (BitVec.ofNat 64 slot <<< 21)}.ncard : ℕ) : ℚ) - 2^64 / slotCount span.toNat| <
        2^32 := by
  have hslots := slotCount_le h1
  have hshift : (BitVec.ofNat 64 slot <<< 21).toNat = slot * 0x200000 := by
    rw [BitVec.toNat_shiftLeft, toNat_ofNat, Nat.shiftLeft_eq]
    omega
  have hbij := kaslrHash_bijective words hj
  have hset : {w | bootKaslrPickSlide (seedOf (update words j w)) span
      = .ok (BitVec.ofNat 64 slot <<< 21)} = Set.preimage
        (fun w => kaslrHash (seedOf (update words j w)))
        {h : BitVec 64 | h.toNat / 2^32 * slotCount span.toNat / 2^32 = slot} := by
    ext w
    obtain ⟨slide, hpick, hslide⟩ := bootKaslrPickSlide_eq (seedOf (update words j w)) h1 h2
    rw [Set.mem_preimage, Set.mem_ofPred_eq, Set.mem_ofPred_eq, hpick, Except.ok.injEq,
      ← toNat_inj, hslide, hshift]
    exact Nat.mul_left_inj (by decide)
  rw [hset, Set.ncard_preimage_of_injective_subset_range hbij.1
    (by rw [hbij.2.range_eq]; exact Set.subset_univ _)]
  exact ncard_slot hslot (by omega)

theorem bootKaslrPickSlide_valid_uniform : SlideSelection where
  valid seed span h₁ h₂ := by
    obtain ⟨slide, hpick, hslide⟩ := bootKaslrPickSlide_eq seed h₁ h₂
    have hfits := slideFits h₂ hslide
    refine ⟨slide, hpick, hfits.aligned, ?_, fun img hbase hspan => ?_, hfits.bootInfoCheckSlide_eq⟩
    · have hend : BOOTINFO_KERNEL_WINDOW_END.toNat =
          BOOTINFO_KERNEL_WINDOW_BASE.toNat + 0x20000000 := by decide
      have hfit := hfits.fits
      omega
    · exact (hspan ▸ hfits : SlideFits img.span slide).not_relocRangeBad hbase
  uniform words j hj span h₁ h₂ slot hslot := ncard_select words hj h₁ h₂ hslot
  reachable words j hj span h₁ h₂ slot hslot := by
    have hcount := (abs_lt.1 (ncard_select words hj h₁ h₂ hslot)).1
    have hslots := slotCount_le h₁
    have hpos : (0 : ℚ) < slotCount span.toNat := by exact_mod_cast Nat.zero_lt_of_lt hslot
    have hpart : (2^56 : ℚ) ≤ 2^64 / slotCount span.toNat := by
      rw [le_div_iff₀ hpos]
      calc (2^56 : ℚ) * slotCount span.toNat ≤ 2^56 * 256 := by
            exact_mod_cast Nat.mul_le_mul_left _ hslots
        _ = 2^64 := by norm_num
    refine Set.nonempty_of_ncard_ne_zero
      (s := {w | bootKaslrPickSlide (seedOf (update words j w)) span =
        .ok (BitVec.ofNat 64 slot <<< 21)}) fun hzero => ?_
    rw [hzero] at hcount
    norm_num at hcount hpart
    linarith

end Bongos.Boot
