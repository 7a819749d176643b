import Bongos.Bits
import Mathlib.Tactic.Ring

/-!
# Premultiplied pixels

`blend.c` and `gfxMulDiv255` of `gfx-internal.h`, on 32-bit words. A pixel is in order if no channel
is above its alpha (`Premul`). A blend adds two products that are rounded apart from each other;
since the rounding is monotone and exact for 255, no sum is above 255 and none is above the sum for
alpha (`premul_gfxBlendPixel`).
-/

namespace Bongos.Gfx

open BitVec

/-- A pixel, or a colour: `0xAARRGGBB`. -/
abbrev Pixel := BitVec 32

inductive GfxOp where
  | srcOver
  | src
  deriving DecidableEq

def gfxMulDiv255 (a b : BitVec 32) : BitVec 32 :=
  let t := a * b + 128#32
  (t + (t >>> 8)) >>> 8

def CH (c : Pixel) (shift : ℕ) : BitVec 32 := (c >>> shift) &&& 0xFF#32

def gfxColorSanitize (c : Pixel) : Pixel :=
  let a := c >>> 24
  let r := CH c 16
  let g := CH c 8
  let b := CH c 0
  let r := if r > a then a else r
  let g := if g > a then a else g
  let b := if b > a then a else b
  (a <<< 24) ||| (r <<< 16) ||| (g <<< 8) ||| b

def scale (c : Pixel) (cov : BitVec 32) : Pixel :=
  if cov = 255#32 then c
  else (gfxMulDiv255 (c >>> 24) cov <<< 24) ||| (gfxMulDiv255 (CH c 16) cov <<< 16) |||
    (gfxMulDiv255 (CH c 8) cov <<< 8) ||| gfxMulDiv255 (CH c 0) cov

def gfxBlendPixel (dst src : Pixel) (cov : BitVec 32) (op : GfxOp) : Pixel :=
  if op = .src then
    if cov = 255#32 then src
    else
      let s := scale src cov
      let ic := 255#32 - cov
      (s &&& 0xFF000000#32) + (gfxMulDiv255 (dst >>> 24) ic <<< 24) +
        ((((s >>> 16) &&& 0xFF#32) + gfxMulDiv255 (CH dst 16) ic) <<< 16) +
        ((((s >>> 8) &&& 0xFF#32) + gfxMulDiv255 (CH dst 8) ic) <<< 8) +
        ((s &&& 0xFF#32) + gfxMulDiv255 (CH dst 0) ic)
  else
    let s := scale src cov
    let ia := 255#32 - (s >>> 24)
    if ia = 255#32 then dst
    else if ia = 0#32 then s
    else (((s >>> 24) + gfxMulDiv255 (dst >>> 24) ia) <<< 24) |||
      ((CH s 16 + gfxMulDiv255 (CH dst 16) ia) <<< 16) |||
      ((CH s 8 + gfxMulDiv255 (CH dst 8) ia) <<< 8) |||
      (CH s 0 + gfxMulDiv255 (CH dst 0) ia)

/-! ## Channels as numbers -/

variable {c s d dst src cov : BitVec 32} {a b x y z w : ℕ}

/-- Alpha, as a number. -/
def alpha (c : Pixel) : ℕ := c.toNat / 2^24

/-- A colour channel, as a number. -/
def channel (c : Pixel) (shift : ℕ) : ℕ := c.toNat / 2^shift % 256

theorem alpha_le (c : Pixel) : alpha c ≤ 255 := by
  unfold alpha
  omega

theorem channel_le (c : Pixel) (shift : ℕ) : channel c shift ≤ 255 :=
  Nat.le_of_lt_succ (Nat.mod_lt _ (by decide))

theorem toNat_alpha (c : Pixel) : (c >>> 24).toNat = alpha c := by
  rw [toNat_ushiftRight, Nat.shiftRight_eq_div_pow, alpha]

theorem toNat_CH (c : Pixel) (shift : ℕ) : (CH c shift).toNat = channel c shift := by
  have hmask : (0xFF#32).toNat = 2^8 - 1 := rfl
  unfold CH channel
  rw [toNat_and, hmask, Nat.and_two_pow_sub_one_eq_mod, toNat_ushiftRight,
    Nat.shiftRight_eq_div_pow]

/-- A pixel by its channels. -/
structure IsPixel (c : Pixel) (a r g b : ℕ) : Prop where
  alpha_eq : alpha c = a
  red_eq : channel c 16 = r
  green_eq : channel c 8 = g
  blue_eq : channel c 0 = b

theorem isPixel_of_toNat (hy : y ≤ 255) (hz : z ≤ 255) (hw : w ≤ 255)
    (h : c.toNat = x * 2^24 + y * 2^16 + z * 2^8 + w) : IsPixel c x y z w := by
  refine ⟨?_, ?_, ?_, ?_⟩
  · unfold alpha
    omega
  · unfold channel
    omega
  · unfold channel
    omega
  · unfold channel
    omega

/-- Channels that are put together by bits. -/
theorem toNat_or_channels {p q r t : BitVec 32} (hp : p.toNat ≤ 255) (hq : q.toNat ≤ 255)
    (hr : r.toNat ≤ 255) (ht : t.toNat ≤ 255) :
    ((p <<< 24) ||| (q <<< 16) ||| (r <<< 8) ||| t).toNat =
      p.toNat * 2^24 + q.toNat * 2^16 + r.toNat * 2^8 + t.toNat := by
  have hshift : ∀ {v : BitVec 32} {k : ℕ}, v.toNat ≤ 255 → k ≤ 24 →
      (v <<< k).toNat = v.toNat <<< k := by
    intro v k hv hk
    rw [toNat_shiftLeft, Nat.mod_eq_of_lt]
    rw [Nat.shiftLeft_eq]
    calc v.toNat * 2^k ≤ 255 * 2^24 := Nat.mul_le_mul hv (Nat.pow_le_pow_right (by decide) hk)
      _ < 2^32 := by decide
  rw [toNat_or, toNat_or, toNat_or, hshift hp le_rfl, hshift hq (by decide),
    hshift hr (by decide), Nat.or_assoc, Nat.or_assoc]
  -- Each part is below the lowest bit of the part before it.
  have hlow : r.toNat <<< 8 ||| t.toNat = r.toNat * 2^8 + t.toNat := by
    rw [← Nat.shiftLeft_add_eq_or_of_lt (by omega), Nat.shiftLeft_eq]
  have hmid : q.toNat <<< 16 ||| (r.toNat * 2^8 + t.toNat) =
      q.toNat * 2^16 + (r.toNat * 2^8 + t.toNat) := by
    rw [← Nat.shiftLeft_add_eq_or_of_lt (by omega), Nat.shiftLeft_eq]
  rw [hlow, hmid, ← Nat.shiftLeft_add_eq_or_of_lt (by omega), Nat.shiftLeft_eq]
  omega

theorem isPixel_or {p q r t : BitVec 32} (hp : p.toNat ≤ 255) (hq : q.toNat ≤ 255)
    (hr : r.toNat ≤ 255) (ht : t.toNat ≤ 255) :
    IsPixel ((p <<< 24) ||| (q <<< 16) ||| (r <<< 8) ||| t) p.toNat q.toNat r.toNat t.toNat :=
  isPixel_of_toNat hq hr ht (toNat_or_channels hp hq hr ht)

/-! ## The rounded product -/

/-- `gfxMulDiv255` on numbers. -/
def mulDiv (a b : ℕ) : ℕ := (a * b + 128 + (a * b + 128) / 256) / 256

theorem toNat_gfxMulDiv255 {p q : BitVec 32} (hp : p.toNat ≤ 255) (hq : q.toNat ≤ 255) :
    (gfxMulDiv255 p q).toNat = mulDiv p.toNat q.toNat := by
  have hmul : p.toNat * q.toNat ≤ 255 * 255 := Nat.mul_le_mul hp hq
  unfold gfxMulDiv255 mulDiv
  simp only [toNat_ushiftRight, toNat_add, toNat_mul, toNat_ofNat, Nat.shiftRight_eq_div_pow]
  omega

theorem mulDiv_mono {a' b' : ℕ} (ha : a ≤ a') (hb : b ≤ b') : mulDiv a b ≤ mulDiv a' b' := by
  have hmul : a * b ≤ a' * b' := Nat.mul_le_mul ha hb
  unfold mulDiv
  omega

/-- The product with 255 is exact. -/
theorem mulDiv_255 (hb : b ≤ 255) : mulDiv 255 b = b := by
  unfold mulDiv
  omega

theorem mulDiv_le (ha : a ≤ 255) (hb : b ≤ 255) : mulDiv a b ≤ b :=
  (mulDiv_mono ha le_rfl).trans (mulDiv_255 hb).le

/-! ## The invariant -/

/-- No channel of the pixel is above its alpha. -/
def Premul (c : Pixel) : Prop :=
  channel c 16 ≤ alpha c ∧ channel c 8 ≤ alpha c ∧ channel c 0 ≤ alpha c

instance (c : Pixel) : Decidable (Premul c) := inferInstanceAs (Decidable (_ ∧ _))

theorem IsPixel.premul {r g : ℕ} (h : IsPixel c a r g b) (hr : r ≤ a) (hg : g ≤ a) (hb : b ≤ a) :
    Premul c := by
  unfold Premul
  rw [h.alpha_eq, h.red_eq, h.green_eq, h.blue_eq]
  exact ⟨hr, hg, hb⟩

/-- The colour of every drawing call is in order. -/
theorem premul_gfxColorSanitize (c : Pixel) : Premul (gfxColorSanitize c) := by
  have hclamp : ∀ p q : BitVec 32, (if p > q then q else p).toNat ≤ q.toNat := by
    intro p q
    split_ifs with h
    · exact le_rfl
    · exact Nat.not_lt.1 h
  have ha := (toNat_alpha c).trans_le (alpha_le c)
  exact (isPixel_or ha ((hclamp _ _).trans ha) ((hclamp _ _).trans ha)
    ((hclamp _ _).trans ha)).premul (hclamp _ _) (hclamp _ _) (hclamp _ _)

theorem isPixel_self (c : Pixel) : IsPixel c (alpha c) (channel c 16) (channel c 8) (channel c 0) :=
  ⟨rfl, rfl, rfl, rfl⟩

/-- The channels of a pixel by a factor. -/
theorem toNat_mulDiv_channels {v : BitVec 32} (hv : v.toNat = z) (hz : z ≤ 255) (c : Pixel) :
    (gfxMulDiv255 (c >>> 24) v).toNat = mulDiv (alpha c) z ∧
      ∀ shift, (gfxMulDiv255 (CH c shift) v).toNat = mulDiv (channel c shift) z := by
  have hprod : ∀ {u : BitVec 32} {n : ℕ}, u.toNat = n → n ≤ 255 →
      (gfxMulDiv255 u v).toNat = mulDiv n z := by
    rintro u n rfl hn
    rw [toNat_gfxMulDiv255 hn (hv.trans_le hz), hv]
  exact ⟨hprod (toNat_alpha c) (alpha_le c), fun _ => hprod (toNat_CH c _) (channel_le c _)⟩

/-- A colour that is scaled by a coverage, by its channels. -/
theorem isPixel_scale (hcov : cov.toNat ≤ 255) : IsPixel (scale c cov) (mulDiv (alpha c) cov.toNat)
    (mulDiv (channel c 16) cov.toNat) (mulDiv (channel c 8) cov.toNat)
    (mulDiv (channel c 0) cov.toNat) := by
  unfold scale
  split_ifs with hfull
  · have hexact : ∀ {v}, v ≤ 255 → mulDiv v cov.toNat = v := fun hv => by
      rw [hfull, mulDiv, Nat.mul_comm]
      exact mulDiv_255 hv
    rw [hexact (alpha_le c), hexact (channel_le c _), hexact (channel_le c _),
      hexact (channel_le c _)]
    exact isPixel_self c
  · obtain ⟨ha, hch⟩ := toNat_mulDiv_channels rfl hcov c
    have hle : ∀ {n}, n ≤ 255 → mulDiv n cov.toNat ≤ 255 := fun hn => (mulDiv_le hn hcov).trans hcov
    have hch_le : ∀ k, (gfxMulDiv255 (CH c k) cov).toNat ≤ 255 := fun k =>
      (hch k).trans_le (hle (channel_le c k))
    have hor := isPixel_or (ha.trans_le (hle (alpha_le c))) (hch_le 16) (hch_le 8) (hch_le 0)
    rwa [ha, hch, hch, hch] at hor

/-- The sum of two products that are rounded apart is not above that of larger numbers, and not
above 255. -/
theorem mulDiv_add_le (ha : a ≤ x) (hb : b ≤ y) (hx : x ≤ 255) (hy : y ≤ 255) (hz : z ≤ 255) :
    mulDiv a z + mulDiv b (255 - z) ≤ mulDiv x z + mulDiv y (255 - z) ∧
      mulDiv x z + mulDiv y (255 - z) ≤ 255 := by
  have hxz := mulDiv_le hx hz
  have hyz : mulDiv y (255 - z) ≤ 255 - z := mulDiv_le hy (by omega)
  exact ⟨Nat.add_le_add (mulDiv_mono ha le_rfl) (mulDiv_mono hb le_rfl), by omega⟩

theorem premul_scale (hc : Premul c) (hcov : cov.toNat ≤ 255) : Premul (scale c cov) :=
  (isPixel_scale hcov).premul (mulDiv_mono hc.1 le_rfl) (mulDiv_mono hc.2.1 le_rfl)
    (mulDiv_mono hc.2.2 le_rfl)

/-- Channels that are put together by additions. -/
theorem isPixel_add {p q r t : BitVec 32} (hp : alpha s + p.toNat ≤ 255)
    (hq : channel s 16 + q.toNat ≤ 255) (hr : channel s 8 + r.toNat ≤ 255)
    (ht : channel s 0 + t.toNat ≤ 255) :
    IsPixel ((s &&& 0xFF000000#32) + (p <<< 24) + ((((s >>> 16) &&& 0xFF#32) + q) <<< 16) +
        ((((s >>> 8) &&& 0xFF#32) + r) <<< 8) + ((s &&& 0xFF#32) + t))
      (alpha s + p.toNat) (channel s 16 + q.toNat) (channel s 8 + r.toNat)
        (channel s 0 + t.toNat) := by
  have htop : (s &&& 0xFF000000#32).toNat = alpha s * 2^24 := by
    have hmask : (0xFF000000#32).toNat = 2^32 - 2^24 := by decide
    rw [toNat_and, hmask, land_two_pow_sub (by decide) s.isLt, alpha]
  have hred : ((s >>> 16) &&& 0xFF#32).toNat = channel s 16 := toNat_CH s 16
  have hgreen : ((s >>> 8) &&& 0xFF#32).toNat = channel s 8 := toNat_CH s 8
  have hblue : (s &&& 0xFF#32).toNat = channel s 0 := by
    rw [← toNat_CH, CH, ushiftRight_zero]
  refine isPixel_of_toNat hq hr ht ?_
  simp only [toNat_add, toNat_shiftLeft, htop, hred, hgreen, hblue, Nat.shiftLeft_eq]
  omega

/-- The factor of the destination. -/
theorem toNat_255_sub {v : BitVec 32} {n : ℕ} (h : v.toNat = n) (hn : n ≤ 255) :
    (255#32 - v).toNat = 255 - n := by
  rw [toNat_sub, h]
  simp only [toNat_ofNat]
  omega

section

variable (hdst : Premul dst) (hsrc : Premul src) (hcov : cov.toNat ≤ 255)

include hdst hsrc hcov

/-- `GFX_OP_SRC`: the source by the coverage, and the destination by the rest of it. -/
theorem premul_blendSrc : Premul (gfxBlendPixel dst src cov .src) := by
  have hic := toNat_255_sub rfl hcov
  obtain ⟨ha, hch⟩ := toNat_mulDiv_channels hic (Nat.sub_le _ _) dst
  have hs : IsPixel (scale src cov) _ _ _ _ := isPixel_scale hcov
  have hsum : ∀ {m n : ℕ}, m ≤ alpha src → n ≤ alpha dst →
      mulDiv m cov.toNat + mulDiv n (255 - cov.toNat) ≤
          mulDiv (alpha src) cov.toNat + mulDiv (alpha dst) (255 - cov.toNat) ∧
        mulDiv (alpha src) cov.toNat + mulDiv (alpha dst) (255 - cov.toNat) ≤ 255 :=
    fun hm hn => mulDiv_add_le hm hn (alpha_le src) (alpha_le dst) hcov
  have hred := hsum hsrc.1 hdst.1
  have hgreen := hsum hsrc.2.1 hdst.2.1
  have hblue := hsum hsrc.2.2 hdst.2.2
  rw [gfxBlendPixel, if_pos rfl]
  split_ifs with hfull
  · exact hsrc
  · refine (isPixel_add ?_ ?_ ?_ ?_).premul ?_ ?_ ?_
    all_goals
      simp only [hs.alpha_eq, hs.red_eq, hs.green_eq, hs.blue_eq, ha, hch]
      omega

/-- `GFX_OP_SRC_OVER`: the scaled source, and the destination by what its alpha leaves. -/
theorem premul_blendSrcOver : Premul (gfxBlendPixel dst src cov .srcOver) := by
  have hs := premul_scale hsrc hcov
  rw [gfxBlendPixel, if_neg (by decide)]
  generalize scale src cov = s at hs
  dsimp only
  have hia := toNat_255_sub (toNat_alpha s) (alpha_le s)
  split_ifs with hclear hopaque
  · exact hdst
  · exact hs
  · obtain ⟨hpa, hch⟩ := toNat_mulDiv_channels hia (Nat.sub_le _ _) dst
    -- No channel's part of the destination is above that of alpha, which is at most the rest.
    have hle : ∀ {n}, n ≤ alpha dst →
        mulDiv n (255 - alpha s) ≤ mulDiv (alpha dst) (255 - alpha s) :=
      fun hn => mulDiv_mono hn le_rfl
    have hrest := mulDiv_le (alpha_le dst) (Nat.sub_le 255 (alpha s))
    have hred := hle hdst.1
    have hgreen := hle hdst.2.1
    have hblue := hle hdst.2.2
    have halpha := alpha_le s
    have hsr := hs.1
    have hsg := hs.2.1
    have hsb := hs.2.2
    have hadd : ∀ {u v : BitVec 32} {m n : ℕ}, u.toNat = m → v.toNat = n → m + n ≤ 255 →
        (u + v).toNat = m + n := by
      rintro u v m n rfl rfl h
      rw [toNat_add]
      omega
    have ha := hadd (toNat_alpha s) hpa (by omega)
    have hr := hadd (toNat_CH s 16) (hch 16) (by omega)
    have hg := hadd (toNat_CH s 8) (hch 8) (by omega)
    have hb := hadd (toNat_CH s 0) (hch 0) (by omega)
    refine (isPixel_or ?_ ?_ ?_ ?_).premul ?_ ?_ ?_
    all_goals
      omega

/-- A blend of pixels that are in order is in order. -/
theorem premul_gfxBlendPixel (op : GfxOp) : Premul (gfxBlendPixel dst src cov op) := by
  cases op with
  | src => exact premul_blendSrc hdst hsrc hcov
  | srcOver => exact premul_blendSrcOver hdst hsrc hcov

end

end Bongos.Gfx
