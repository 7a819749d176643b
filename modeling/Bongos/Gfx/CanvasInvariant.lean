import Bongos.Gfx.Canvas
import Bongos.Gfx.RasterClip
import Bongos.Gfx.RegionInvariant
import Bongos.Run

/-!
# Drawing stays in the clip

What a drawing call may do to the memory is a preorder (`Drawn`): it changes nothing but pixels of
the clip, and a pixel that is in order stays in order. Every span, every row and so every call is of
this kind. `gfxFillRect` is described exactly, pixel by pixel. Where a call may draw is said of the
calls made before it (`Pen`), in unbounded coordinates, and the canvas keeps track of that
(`Pen.Tracks`).
-/

namespace Bongos.Gfx

open List

variable {c : GfxCanvas} {s : GfxSurface} {m m' m'' : PixelMem} {clip : GfxRect} {p : ℤ × ℤ}
  {q dst n : ℕ} {x y : ℤ}

/-! ## Addresses -/

/-- The pixels of a surface. -/
def GfxSurface.Mem (s : GfxSurface) (p : ℤ × ℤ) : Prop :=
  (0 ≤ p.1 ∧ p.1 < s.width) ∧ 0 ≤ p.2 ∧ p.2 < s.height

instance (s : GfxSurface) (p : ℤ × ℤ) : Decidable (s.Mem p) := inferInstanceAs (Decidable (_ ∧ _))

/-- The address of a pixel of the surface. -/
abbrev addrOf (s : GfxSurface) (p : ℤ × ℤ) : ℕ := pixelPtr s p.1 p.2

/-- The pixels of a row have consecutive addresses. -/
theorem pixelPtr_add (hx : 0 ≤ x) (i : ℕ) : pixelPtr s x y + i = pixelPtr s (x + i) y := by
  unfold pixelPtr
  omega

/-- An address in a part of a row is the address of a pixel in it, and of no other pixel. -/
theorem pixelPtr_mem_span (hstride : (s.width : ℤ) ≤ s.stride) {p : ℤ × ℤ} (hp : s.Mem p)
    {x0 x1 y : ℤ} (hx0 : 0 ≤ x0) (hx1 : x1 ≤ s.width) (hy : 0 ≤ y) :
    (pixelPtr s x0 y ≤ addrOf s p ∧ addrOf s p < pixelPtr s x0 y + (x1 - x0).toNat) ↔
      p.2 = y ∧ x0 ≤ p.1 ∧ p.1 < x1 := by
  obtain ⟨⟨hpx, hpx'⟩, hpy, -⟩ := hp
  have hrow : ∀ {b d : ℕ}, b < d →
      b * (s.stride : ℤ).toNat + (s.stride : ℤ).toNat ≤ d * (s.stride : ℤ).toNat := by
    intro b d hbd
    rw [← Nat.succ_mul]
    exact Nat.mul_le_mul_right _ hbd
  unfold addrOf pixelPtr
  constructor
  · intro h
    -- A smaller or larger row is at least a whole stride away.
    rcases Nat.lt_trichotomy p.2.toNat y.toNat with hlt | heq | hlt
    · have hle := hrow hlt
      omega
    · rw [heq] at h
      omega
    · have hle := hrow hlt
      omega
  · rintro ⟨rfl, hx⟩
    omega

/-- The call may write to the address: it is that of a pixel of the clip. -/
def InClip (s : GfxSurface) (clip : GfxRect) (q : ℕ) : Prop := ∃ p, clip.Mem p ∧ q = addrOf s p

/-! ## What drawing may change -/

/-- From `m` to `m'` only pixels of the clip changed, and pixels in order stayed in order. -/
structure Drawn (s : GfxSurface) (clip : GfxRect) (m m' : PixelMem) : Prop where
  frame : ∀ q, ¬ InClip s clip q → m' q = m q
  premul : ∀ q, Premul (m q) → Premul (m' q)

theorem Drawn.refl (m : PixelMem) : Drawn s clip m m := ⟨fun _ _ => rfl, fun _ => id⟩

theorem Drawn.trans (h : Drawn s clip m m') (h' : Drawn s clip m' m'') : Drawn s clip m m'' :=
  ⟨fun q hq => (h'.frame q hq).trans (h.frame q hq), fun q hq => h'.premul q (h.premul q hq)⟩

/-- A loop whose rounds draw draws. A round may use what the ones before it kept. -/
theorem Drawn.foldl {α : Type*} {f : PixelMem → α → PixelMem} {l : List α}
    (h : ∀ m', Drawn s clip m m' → ∀ a ∈ l, Drawn s clip m' (f m' a)) :
    Drawn s clip m (l.foldl f m) :=
  List.foldlRecOn l f (.refl m) fun m' hm' a ha => hm'.trans (h m' hm' a ha)

theorem drawn_setPixel {v : Pixel} (hq : InClip s clip q) (hv : Premul (m q) → Premul v) :
    Drawn s clip m (setPixel m q v) := by
  refine ⟨fun q' hq' => if_neg fun h : q' = q => hq' (h ▸ hq), fun q' hm => ?_⟩
  unfold setPixel
  split_ifs with h
  · exact hv (h ▸ hm)
  · exact hm

theorem mapSpan_apply (f : ℕ → Pixel → Pixel) :
    mapSpan m dst n f q = if dst ≤ q ∧ q < dst + n then f (q - dst) (m q) else m q := by
  unfold mapSpan
  induction n with
  | zero => rw [if_neg (by omega)]; rfl
  | succ n ih =>
    rw [range_succ, foldl_append, foldl_cons, foldl_nil, setPixel]
    split_ifs with heq hin hin
    · -- The pixel of this round has not been changed before.
      subst heq
      rw [show dst + n - dst = n by omega]
      have hlast := ih
      rw [if_neg (by omega)] at hlast
      rw [hlast]
    · omega
    · rw [ih, if_pos (by omega)]
    · rw [ih, if_neg (by omega)]

/-- A span of the clip. -/
theorem drawn_mapSpan {f : ℕ → Pixel → Pixel} (hx : 0 ≤ x)
    (hclip : ∀ i : ℕ, i < n → clip.Mem (x + i, y)) (hf : ∀ i d, Premul d → Premul (f i d)) :
    Drawn s clip m (mapSpan m (pixelPtr s x y) n f) := by
  refine ⟨fun q hq => ?_, fun q hm => ?_⟩
  · rw [mapSpan_apply, if_neg]
    rintro ⟨hle, hlt⟩
    refine hq ⟨_, hclip (q - pixelPtr s x y) (by omega), ?_⟩
    show q = pixelPtr s (x + (q - pixelPtr s x y : ℕ)) y
    rw [← pixelPtr_add hx]
    omega
  · rw [mapSpan_apply]
    split_ifs
    · exact hf _ _ hm
    · exact hm

/-- A span of one colour is blended pixel by pixel: the shortcuts change nothing. -/
theorem gfxBlendSpan_eq (col : Pixel) (op : GfxOp) :
    gfxBlendSpan m dst n col op = mapSpan m dst n fun _ d => gfxBlendPixel d col 255#32 op := by
  have hscale : scale col 255#32 = col := if_pos rfl
  unfold gfxBlendSpan
  split_ifs with hclear hpart
  · obtain ⟨rfl, hzero⟩ := hclear
    funext q
    have hblend : ∀ d, gfxBlendPixel d col 255#32 .srcOver = d := by
      intro d
      simp only [gfxBlendPixel, hscale, hzero]
      rfl
    rw [mapSpan_apply]
    simp only [hblend, ite_self]
  · rfl
  · have hblend : ∀ d, gfxBlendPixel d col 255#32 op = col := by
      intro d
      cases op with
      | src => rw [gfxBlendPixel, if_pos rfl, if_pos rfl]
      | srcOver =>
        have hfull : col >>> 24 = 255#32 := by simpa using hpart
        simp only [gfxBlendPixel, hscale, hfull]
        rfl
    simp only [hblend]

/-! ## Canvases -/

/-- The invariant of a canvas: its surface is in order, and the clip is a part of it. -/
structure CanvasOk (c : GfxCanvas) : Prop where
  width_le : (c.surf.width : ℤ) ≤ c.surf.stride
  width_le_max : (c.surf.width : ℤ) ≤ GFX_SURFACE_MAX_DIM
  height_le_max : (c.surf.height : ℤ) ≤ GFX_SURFACE_MAX_DIM
  clip_mem {p : ℤ × ℤ} : c.clip.Mem p → c.surf.Mem p

theorem canvasOk_init (h : gfxCanvasInit s = .ok c) : CanvasOk c ∧ c.surf = s := by
  unfold gfxCanvasInit at h
  split_ifs at h with h1 h2
  cases h
  refine ⟨⟨?_, ?_, ?_, ?_⟩, rfl⟩
  · dsimp only
    omega
  · dsimp only
    omega
  · dsimp only
    omega
  · intro p hp
    exact ⟨⟨hp.1, hp.2.1⟩, hp.2.2.1, hp.2.2.2⟩

/-! ## Fills of rectangles -/

theorem toSurface_eq (r : GfxRect) : toSurface c r = shifted r c.originX c.originY := rfl

/-- A pixel of the clip is in the rectangle on the surface exactly if it is in the rectangle on the
canvas: where the sides saturate there are no pixels. -/
theorem CanvasOk.mem_toSurface (h : CanvasOk c) (hp : c.clip.Mem p) (r : GfxRect) :
    (toSurface c r).Mem p ↔ r.Mem (p.1 - c.originX, p.2 - c.originY) := by
  have hsurf := h.clip_mem hp
  have hw := h.width_le_max
  have hh := h.height_le_max
  rw [toSurface_eq, mem_shifted, and_iff_left]
  unfold GfxSurface.Mem at hsurf
  unfold GFX_SURFACE_MAX_DIM at hw hh
  unfold InRange
  omega

variable {col : Pixel} {op : GfxOp} {rule : GfxFillRule}

/-- A row of the rectangle, pixel by pixel. -/
theorem CanvasOk.blendSpan_apply (h : CanvasOk c) {d : GfxRect} (hd : ∀ p, d.Mem p → c.clip.Mem p)
    (hne : ¬ gfxRectIsEmpty d) (hy : (d.y0 : ℤ) ≤ y ∧ y < d.y1) (hp : c.surf.Mem p) :
    gfxBlendSpan m (pixelPtr c.surf d.x0 y) ((d.x1 : ℤ) - d.x0).toNat col op (addrOf c.surf p) =
      if p.2 = y ∧ (d.x0 : ℤ) ≤ p.1 ∧ p.1 < d.x1 then
        gfxBlendPixel (m (addrOf c.surf p)) col 255#32 op
      else m (addrOf c.surf p) := by
  unfold gfxRectIsEmpty at hne
  -- The corners of the rectangle are pixels of the surface.
  have hleft := h.clip_mem (hd (d.x0, y) ⟨le_rfl, by dsimp only; omega, hy⟩)
  have hright :=
    h.clip_mem (hd ((d.x1 : ℤ) - 1, y) ⟨by dsimp only; omega, by dsimp only; omega, hy⟩)
  have hwidth : (d.x1 : ℤ) ≤ c.surf.width := by
    have hlt := hright.1.2
    omega
  rw [gfxBlendSpan_eq, mapSpan_apply]
  simp only [pixelPtr_mem_span h.width_le hp hleft.1.1 hwidth hleft.2.1]

/-- The rows of the rectangle, pixel by pixel. -/
theorem CanvasOk.fillRows_apply (h : CanvasOk c) {d : GfxRect} (hd : ∀ p, d.Mem p → c.clip.Mem p)
    (hne : ¬ gfxRectIsEmpty d) (hp : c.surf.Mem p) :
    (countUp d.y0 d.y1 1).foldl
        (fun m y => gfxBlendSpan m (pixelPtr c.surf d.x0 y) ((d.x1 : ℤ) - d.x0).toNat col op) m
        (addrOf c.surf p) =
      if d.Mem p then gfxBlendPixel (m (addrOf c.surf p)) col 255#32 op
      else m (addrOf c.surf p) := by
  set row := fun (m : PixelMem) y =>
    gfxBlendSpan m (pixelPtr c.surf d.x0 y) ((d.x1 : ℤ) - d.x0).toNat col op
  -- The induction is on the rows to come; a row is drawn once.
  have hrows : ∀ (ys : List ℤ) (m : PixelMem), ys.Nodup → (∀ y ∈ ys, (d.y0 : ℤ) ≤ y ∧ y < d.y1) →
      ys.foldl row m (addrOf c.surf p) = if p.2 ∈ ys ∧ (d.x0 : ℤ) ≤ p.1 ∧ p.1 < d.x1 then
        gfxBlendPixel (m (addrOf c.surf p)) col 255#32 op else m (addrOf c.surf p) := by
    intro ys
    induction ys with
    | nil => simp
    | cons y ys ih =>
      intro m hnodup hin
      obtain ⟨hy, hnodup⟩ := nodup_cons.1 hnodup
      obtain ⟨hin, hins⟩ := forall_mem_cons.1 hin
      have hrow : row m y (addrOf c.surf p) = _ := h.blendSpan_apply hd hne hin hp
      rw [foldl_cons, ih _ hnodup hins, hrow]
      by_cases hyp : p.2 = y
      · simp [hyp, hy]
      · simp [hyp]
  rw [hrows _ m (nodup_countUp Int.one_pos) fun y hy => mem_countUp_one.1 hy]
  simp only [mem_countUp_one]
  exact if_congr (by unfold GfxRect.Mem; tauto) rfl rfl

/-- `gfxFillRect` blends the pixels of the clip that are in the rectangle, and no others. -/
theorem CanvasOk.fillRect_apply (h : CanvasOk c) (r : GfxRect) (hp : c.surf.Mem p) :
    gfxFillRect c m r col op (addrOf c.surf p) =
      if c.clip.Mem p ∧ r.Mem (p.1 - c.originX, p.2 - c.originY) then
        gfxBlendPixel (m (addrOf c.surf p)) (gfxColorSanitize col) 255#32 op
      else m (addrOf c.surf p) := by
  have hd : ∀ p, (gfxRectIntersect (toSurface c r) c.clip).Mem p → c.clip.Mem p :=
    fun p hp => (mem_intersect.1 hp).2
  have hiff : (gfxRectIntersect (toSurface c r) c.clip).Mem p ↔
      c.clip.Mem p ∧ r.Mem (p.1 - c.originX, p.2 - c.originY) := by
    rw [mem_intersect, and_comm, and_congr_right_iff]
    exact fun hclip => h.mem_toSurface hclip r
  unfold gfxFillRect
  split_ifs with hempty hin hin
  · exact absurd hempty (not_isEmpty_iff.2 ⟨p, hiff.2 hin⟩)
  · rfl
  · rw [h.fillRows_apply hd hempty hp, if_pos (hiff.2 hin)]
  · rw [h.fillRows_apply hd hempty hp, if_neg (mt hiff.1 hin)]

/-! ## Drawing calls -/

theorem CanvasOk.nonneg (h : CanvasOk c) (hp : c.clip.Mem p) : 0 ≤ p.1 := (h.clip_mem hp).1.1

theorem drawn_gfxBlendSpanCov {cov : ℕ → Byte} (hx : 0 ≤ x)
    (hclip : ∀ i : ℕ, i < n → clip.Mem (x + i, y)) (hcol : Premul col) :
    Drawn s clip m (gfxBlendSpanCov m (pixelPtr s x y) cov n col op) := by
  refine drawn_mapSpan hx hclip fun i d hd => ?_
  split_ifs
  · refine premul_gfxBlendPixel hd hcol ?_ op
    rw [BitVec.toNat_setWidth]
    omega
  · exact hd

theorem CanvasOk.drawn_fillRect (h : CanvasOk c) (r : GfxRect) :
    Drawn c.surf c.clip m (gfxFillRect c m r col op) := by
  unfold gfxFillRect
  dsimp only
  split_ifs with hempty
  · exact .refl m
  set d := gfxRectIntersect (toSurface c r) c.clip with hd
  have hclip : ∀ p, d.Mem p → c.clip.Mem p := fun p hp => (mem_intersect.1 hp).2
  refine .foldl fun m' _ y hy => ?_
  rw [mem_countUp_one] at hy
  unfold gfxRectIsEmpty at hempty
  have hmem : ∀ i : ℕ, i < ((d.x1 : ℤ) - d.x0).toNat → c.clip.Mem ((d.x0 : ℤ) + i, y) :=
    fun i hi => hclip _ ⟨by dsimp only; omega, by dsimp only; omega, hy⟩
  have hx : 0 ≤ (d.x0 : ℤ) := by
    have hfirst := h.nonneg (hmem 0 (by omega))
    simpa using hfirst
  rw [gfxBlendSpan_eq]
  exact drawn_mapSpan hx hmem fun _ d hd =>
    premul_gfxBlendPixel hd (premul_gfxColorSanitize col) (by decide) op

/-- The box of a blit or a mask is a part of the clip. -/
theorem drawBox_mem {b : DrawBox} {ddx ddy w h : ℤ} (hb : drawBox clip ddx ddy w h = b)
    (hx : b.x0 ≤ x) (hx' : x < b.x1) (hy : b.y0 ≤ y) (hy' : y < b.y1) :
    clip.Mem (x, y) ∧ (ddx ≤ x ∧ x < ddx + w) ∧ ddy ≤ y ∧ y < ddy + h := by
  subst hb
  unfold drawBox at hx hx' hy hy'
  unfold GfxRect.Mem
  dsimp only at *
  split_ifs at hx hx' hy hy' <;> omega

theorem CanvasOk.drawn_fillMask (h : CanvasOk c) (dx dy : I32) (mask : Option GfxMask) :
    Drawn c.surf c.clip m (gfxFillMask c m dx dy mask col) := by
  unfold gfxFillMask
  cases mask with
  | none => exact .refl m
  | some k =>
    cases hdata : k.data with
    | none => simp only [hdata]; exact .refl m
    | some data =>
      simp only [hdata]
      obtain ⟨b, hb⟩ : ∃ b, drawBox c.clip ((dx : ℤ) + c.originX) ((dy : ℤ) + c.originY) k.width
        k.height = b := ⟨_, rfl⟩
      rw [hb]
      split_ifs with hbad hempty
      · exact .refl m
      · exact .refl m
      · refine .foldl fun m' _ y hy => ?_
        rw [mem_countUp_one] at hy
        have hmem : ∀ i : ℕ, i < (b.x1 - b.x0).toNat → c.clip.Mem (b.x0 + i, y) := fun i hi =>
          (drawBox_mem hb (by omega) (by omega) hy.1 hy.2).1
        have hx : 0 ≤ b.x0 := by
          have hfirst := h.nonneg (hmem 0 (by omega))
          simpa using hfirst
        exact drawn_gfxBlendSpanCov hx hmem (premul_gfxColorSanitize col)

/-- A row of a blit. An opaque copy needs a source in order; the other blends clamp it. -/
theorem drawn_blitRow {alpha : Byte} {backwardsX : Bool} {cols : ℤ} {sp : ℕ} (hx : 0 ≤ x)
    (hclip : ∀ i : ℕ, (i : ℤ) < cols → clip.Mem (x + i, y))
    (hsrc : op = .src ∧ alpha = 255#8 → ∀ i : ℕ, (i : ℤ) < cols → Premul (m (sp + i))) :
    Drawn s clip m (blitRow op alpha backwardsX cols m sp (pixelPtr s x y)) := by
  have hin : ∀ i : ℕ, (i : ℤ) < cols → InClip s clip (pixelPtr s x y + i) := fun i hi =>
    ⟨_, hclip i hi, pixelPtr_add hx i⟩
  unfold blitRow
  by_cases hopaque : op = .src ∧ alpha = 255#8
  · rw [if_pos hopaque]
    unfold movePixels
    constructor
    · intro q hq
      refine if_neg fun hspan => hq ?_
      obtain ⟨i, rfl⟩ := Nat.exists_eq_add_of_le hspan.1
      exact hin i (by omega)
    · intro q hq
      split_ifs with hspan
      · exact hsrc hopaque _ (by omega)
      · exact hq
  · rw [if_neg hopaque]
    refine .foldl fun m' _ j hj => ?_
    rw [mem_countUp_one] at hj
    refine drawn_setPixel (hin _ ?_) fun hd => ?_
    · split_ifs <;> omega
    · refine premul_gfxBlendPixel hd (premul_gfxColorSanitize _) ?_ op
      rw [BitVec.toNat_setWidth]
      omega

/-- The pixels of a surface are in order. -/
def SurfacePremul (s : GfxSurface) (m : PixelMem) : Prop := ∀ p, s.Mem p → Premul (m (addrOf s p))

/-- The rows of a blit, if the box is in the clip and what is read is in the source. -/
theorem CanvasOk.drawn_blitRows (h : CanvasOk c) {src : GfxSurface} {alpha : Byte}
    {b : DrawBox} {sx0 sy0 : ℤ} (hlt : b.x0 < b.x1)
    (hclip : ∀ x y, b.x0 ≤ x → x < b.x1 → b.y0 ≤ y → y < b.y1 →
      c.clip.Mem (x, y) ∧ src.Mem (sx0 + (x - b.x0), sy0 + (y - b.y0)))
    (hsrc : op = .src ∧ alpha = 255#8 → SurfacePremul src m) :
    Drawn c.surf c.clip m (blitRows c src op alpha b sx0 sy0 m) := by
  refine .foldl fun m' hm' i hi => ?_
  rw [mem_countUp_one] at hi
  generalize hry : (if (decide (src.pixels = c.surf.pixels) && decide (b.y0 > sy0)) = true then
    b.y1 - b.y0 - 1 - i else i) = ry
  obtain ⟨hfirst, hfirst'⟩ := hclip b.x0 (b.y0 + ry) le_rfl hlt (by omega) (by omega)
  refine drawn_blitRow (h.nonneg hfirst) (fun j hj => ?_) fun hop j hj => ?_
  · exact (hclip _ _ (by omega) (by omega) (by omega) (by omega)).1
  · -- A pixel of the source was in order at first, and drawing keeps it so.
    have hread := (hclip (b.x0 + j) (b.y0 + ry) (by omega) (by omega) (by omega) (by omega)).2
    rw [add_sub_cancel_left, add_sub_cancel_left] at hread
    rw [pixelPtr_add (by have hnonneg := hfirst'.1.1; dsimp only at hnonneg; omega)]
    exact hm'.premul _ (hsrc hop _ hread)

theorem CanvasOk.drawn_blit (h : CanvasOk c) (dx dy : I32) (src : Option GfxSurface)
    (srcRect : GfxRect) (alpha : Byte)
    (hsrc : op = .src ∧ alpha = 255#8 → ∀ s ∈ src, SurfacePremul s m) :
    Drawn c.surf c.clip m (gfxBlit c m dx dy src srcRect op alpha) := by
  unfold gfxBlit
  cases src with
  | none => exact .refl m
  | some src =>
    dsimp only
    obtain ⟨sr, hsr⟩ : ∃ sr, gfxRectIntersect srcRect
      ⟨⟨0, zero_i32⟩, ⟨0, zero_i32⟩, src.width, src.height⟩ = sr := ⟨_, rfl⟩
    -- The pixels of the clamped source rectangle are pixels of the source.
    have hin : ∀ p, sr.Mem p → src.Mem p := by
      intro p hp
      rw [← hsr] at hp
      obtain ⟨-, hx, hx', hy⟩ := mem_intersect.1 hp
      exact ⟨⟨hx, hx'⟩, hy⟩
    rw [hsr]
    generalize (dx : ℤ) + ((sr.x0 : ℤ) - srcRect.x0) + c.originX = ddx
    generalize (dy : ℤ) + ((sr.y0 : ℤ) - srcRect.y0) + c.originY = ddy
    obtain ⟨b, hb⟩ : ∃ b, drawBox c.clip ddx ddy ((sr.x1 : ℤ) - sr.x0) ((sr.y1 : ℤ) - sr.y0) = b :=
      ⟨_, rfl⟩
    rw [hb]
    split_ifs with hbad hnone hempty
    · exact .refl m
    · exact .refl m
    · exact .refl m
    · refine h.drawn_blitRows (by omega) (fun x y hx hx' hy hy' => ?_) fun hop => hsrc hop src rfl
      obtain ⟨hclip, hbx, hby⟩ := drawBox_mem hb hx hx' hy hy'
      refine ⟨hclip, hin _ ⟨?_, ?_, ?_, ?_⟩⟩ <;> dsimp only <;> omega

/-- The spans of a fill are in the clip. -/
theorem fillSpans_mem {edges : List GfxEdge} {cells : Cells} {sp : Span}
    (hsp : sp ∈ fillSpans cells edges clip rule) :
    0 < sp.cov.length ∧ ∀ i : ℕ, i < sp.cov.length → clip.Mem (sp.x + i, sp.y) := by
  cases edges with
  | nil => exact absurd hsp not_mem_nil
  | cons first rest =>
    obtain ⟨-, hlt, y, hy, rfl⟩ := (mem_fillSpans_cons rfl).1 hsp
    have hlen : ((rowSpan (first :: rest) rule _ y).cov.length : ℤ) = _ := length_rowSpan y hlt
    have hbox : ∀ X, (rasterBox first (first :: rest) clip).Mem (X, y) → clip.Mem (X, y) := by
      intro X hX
      unfold RasterBox.Mem rasterBox at hX
      unfold GfxRect.Mem
      dsimp only at hX ⊢
      split_ifs at hX <;> omega
    refine ⟨by omega, fun i hi => hbox _ ⟨⟨?_, ?_⟩, hy⟩⟩
    · dsimp only [rowSpan]
      omega
    · dsimp only [rowSpan] at hlen hi ⊢
      omega

theorem CanvasOk.drawn_fillPath {F : Type*} [FloatArith F] (h : CanvasOk c) {answers : ℕ → Bool}
    {cells : Cells} {path : GfxPath F} {st : Status}
    {c' : GfxCanvas} (hfill : gfxFillPath answers cells c m path rule col op = (st, c', m')) :
    Drawn c.surf c.clip m m' ∧ (st ≠ .ok → m' = m) ∧
      ∃ size, c' = { c with scratchSize := size } := by
  unfold gfxFillPath at hfill
  by_cases herror : path.error ≠ .ok
  · rw [if_pos herror] at hfill
    cases hfill
    exact ⟨.refl m, fun _ => rfl, _, rfl⟩
  rw [if_neg herror] at hfill
  by_cases hnothing : gfxRectIsEmpty c.clip ∨ path.verbs = []
  · rw [if_pos hnothing] at hfill
    cases hfill
    exact ⟨.refl m, fun _ => rfl, _, rfl⟩
  rw [if_neg hnothing] at hfill
  dsimp only at hfill
  generalize gfxFlattenPath answers path c.originX c.originY (gfxEdgeListInit c.clip) = l at hfill
  by_cases hflat : l.error ≠ .ok
  · rw [if_pos hflat] at hfill
    cases hfill
    exact ⟨.refl m, fun _ => rfl, _, rfl⟩
  rw [if_neg hflat] at hfill
  obtain ⟨⟨st', size, m''⟩, hraster⟩ : ∃ r, gfxRasterFill (answers l.requests) cells c.scratchSize
      l.edges c.clip rule (canvasSpan c (gfxColorSanitize col) op) m = r := ⟨_, rfl⟩
  rw [hraster] at hfill
  cases hfill
  obtain ⟨hok, herr⟩ := gfxRasterFill_spec hraster
  refine ⟨?_, herr, size, rfl⟩
  by_cases hst : st' = .ok
  · rw [hok hst]
    refine .foldl fun m1 _ sp hsp => ?_
    obtain ⟨hlen, hmem⟩ := fillSpans_mem hsp
    have hx : 0 ≤ sp.x := by simpa using h.nonneg (hmem 0 hlen)
    exact drawn_gfxBlendSpanCov hx hmem (premul_gfxColorSanitize col)
  · rw [herr hst]
    exact .refl m

/-! ## Runs of calls -/

/-- A canvas, and the memory. -/
structure Drawing where
  canvas : GfxCanvas
  mem : PixelMem

/-- A call on a canvas. A path fill comes with the allocator's answers and what stands in the
scratch memory. -/
inductive CanvasCall (F : Type*) where
  | setOrigin (x y : I32)
  | translate (dx dy : I32)
  | pushClip (r : GfxRect)
  | popClip
  | fillRect (r : GfxRect) (col : Pixel) (op : GfxOp)
  | fillMask (dx dy : I32) (mask : Option GfxMask) (col : Pixel)
  | fillPath (answers : ℕ → Bool) (cells : Cells) (path : GfxPath F) (rule : GfxFillRule)
      (col : Pixel) (op : GfxOp)
  | blit (dx dy : I32) (src : Option GfxSurface) (srcRect : GfxRect) (op : GfxOp) (alpha : Byte)

variable {F : Type*}

/-- What the caller owes: the source of an opaque copy is in order. -/
def CanvasCall.Legal (w : Drawing) : CanvasCall F → Prop
  | .blit _ _ src _ op alpha => op = .src ∧ alpha = 255#8 → ∀ s ∈ src, SurfacePremul s w.mem
  | _ => True

/-- Where drawing goes, as the calls say it: the origin, and the clips that were pushed and not
popped, the latest first, each with the origin at which it was pushed. -/
structure Pen where
  origin : ℤ × ℤ
  clips : List (GfxRect × ℤ × ℤ)

/-- The `int32_t` nearest to a number. -/
def clamp32 (v : ℤ) : ℤ := max (-2^31) (min (2^31 - 1) v)

/-- What a call says. A clip that is one too many is not pushed. -/
def Pen.next (g : Pen) : CanvasCall F → Pen
  | .setOrigin x y => { g with origin := (x, y) }
  | .translate dx dy => { g with origin := (clamp32 (g.origin.1 + dx), clamp32 (g.origin.2 + dy)) }
  | .pushClip r => if g.clips.length < 31 then { g with clips := (r, g.origin) :: g.clips } else g
  | .popClip => { g with clips := g.clips.tail }
  | _ => g

/-- The pixels of the surface that are in every clip. -/
def Visible (s : GfxSurface) (clips : List (GfxRect × ℤ × ℤ)) (p : ℤ × ℤ) : Prop :=
  s.Mem p ∧ ∀ e ∈ clips, e.1.Mem (p.1 - e.2.1, p.2 - e.2.2)

instance (s : GfxSurface) (clips : List (GfxRect × ℤ × ℤ)) (p : ℤ × ℤ) :
    Decidable (Visible s clips p) := inferInstanceAs (Decidable (_ ∧ _))

/-- The canvas has the origin of the pen, and its clips hold what is visible through those
pushed. -/
structure Pen.Tracks (g : Pen) (c : GfxCanvas) : Prop where
  originX : (c.originX : ℤ) = g.origin.1
  originY : (c.originY : ℤ) = g.origin.2
  clips : Forall₂ (fun clip pushed => ∀ p, clip.Mem p ↔ Visible c.surf pushed p) (c.clip :: c.outer)
    g.clips.tails

variable {g : Pen}

theorem tracks_init (h : gfxCanvasInit s = .ok c) : Pen.Tracks ⟨(0, 0), []⟩ c := by
  unfold gfxCanvasInit at h
  split_ifs at h with h1 h2
  cases h
  refine ⟨rfl, rfl, .cons (fun p => ?_) .nil⟩
  unfold Visible GfxSurface.Mem GfxRect.Mem
  simp only [not_mem_nil, false_implies, implies_true, and_true, and_assoc]

/-- The clip on top. -/
theorem Pen.Tracks.clip_mem_iff (h : g.Tracks c) : c.clip.Mem p ↔ Visible c.surf g.clips p := by
  obtain ⟨origin, clips⟩ := g
  cases clips with
  | nil => exact (forall₂_cons.1 h.clips).1 p
  | cons e rest => exact (forall₂_cons.1 h.clips).1 p

theorem Pen.Tracks.length_eq (h : g.Tracks c) : c.outer.length = g.clips.length := by
  have hlen := h.clips.length_eq
  rw [length_cons, length_tails] at hlen
  omega

theorem Pen.Tracks.pushClip (h : g.Tracks c) (hok : CanvasOk c) (r : GfxRect) :
    (g.next (.pushClip r : CanvasCall F)).Tracks (gfxCanvasPushClip c r).2 ∧
      (gfxCanvasPushClip c r).1 = if g.clips.length < 31 then .ok else .errUnsupported := by
  rw [gfxCanvasPushClip, h.length_eq, Pen.next]
  by_cases hroom : g.clips.length < 31
  · rw [if_pos hroom, if_pos hroom, if_neg (by unfold GFX_CLIP_DEPTH; omega)]
    refine ⟨⟨h.originX, h.originY, .cons (fun p => ?_) h.clips⟩, rfl⟩
    -- A pixel of the old clip is in the rectangle as it is on the canvas.
    have hrect : c.clip.Mem p →
        ((toSurface c r).Mem p ↔ r.Mem (p.1 - g.origin.1, p.2 - g.origin.2)) := by
      intro hclip
      rw [hok.mem_toSurface hclip, h.originX, h.originY]
    rw [mem_intersect, and_congr_left_iff.2 hrect, h.clip_mem_iff]
    unfold Visible
    rw [forall_mem_cons]
    tauto
  · rw [if_neg hroom, if_neg hroom, if_pos (by unfold GFX_CLIP_DEPTH; omega)]
    exact ⟨h, rfl⟩

theorem Pen.Tracks.popClip (h : g.Tracks c) :
    (g.next (.popClip : CanvasCall F)).Tracks (gfxCanvasPopClip c).2 ∧
      (gfxCanvasPopClip c).1 = if g.clips = [] then .errInvalid else .ok := by
  have hlen := h.length_eq
  have hclips := h.clips
  obtain ⟨origin, clips⟩ := g
  cases clips with
  | nil =>
    rw [gfxCanvasPopClip, eq_nil_of_length_eq_zero hlen]
    exact ⟨h, rfl⟩
  | cons e rest =>
    obtain ⟨r, rs, hr⟩ := exists_cons_of_length_eq_add_one hlen
    rw [hr] at hclips
    rw [gfxCanvasPopClip, hr]
    exact ⟨⟨h.originX, h.originY, (forall₂_cons.1 hclips).2⟩, rfl⟩

variable [FloatArith F]

/-- What a call returns and does. A function without a result returns `ok`. -/
def CanvasCall.run (w : Drawing) : CanvasCall F → Status × Drawing
  | .setOrigin x y => (.ok, { w with canvas := gfxCanvasSetOrigin w.canvas x y })
  | .translate dx dy => (.ok, { w with canvas := gfxCanvasTranslate w.canvas dx dy })
  | .pushClip r =>
    ((gfxCanvasPushClip w.canvas r).1, { w with canvas := (gfxCanvasPushClip w.canvas r).2 })
  | .popClip => ((gfxCanvasPopClip w.canvas).1, { w with canvas := (gfxCanvasPopClip w.canvas).2 })
  | .fillRect r col op => (.ok, { w with mem := gfxFillRect w.canvas w.mem r col op })
  | .fillMask dx dy mask col => (.ok, { w with mem := gfxFillMask w.canvas w.mem dx dy mask col })
  | .fillPath answers cells path rule col op =>
    let r := gfxFillPath answers cells w.canvas w.mem path rule col op
    (r.1, ⟨r.2.1, r.2.2⟩)
  | .blit dx dy src srcRect op alpha =>
    (.ok, { w with mem := gfxBlit w.canvas w.mem dx dy src srcRect op alpha })

/-- A call, as a step. -/
def CanvasStep (F : Type*) [FloatArith F] (w w' : Drawing × Pen) : Prop :=
  ∃ call : CanvasCall F, call.Legal w.1 ∧ ((call.run w.1).2, w.2.next call) = w'

/-- What a call on a canvas that is in order does. -/
theorem CanvasCall.run_spec {w : Drawing} (h : CanvasOk w.canvas) (hg : g.Tracks w.canvas)
    (call : CanvasCall F) (hlegal : call.Legal w) :
    (g.next call).Tracks (call.run w).2.canvas ∧
      (call.run w).2.canvas.surf = w.canvas.surf ∧
      Drawn w.canvas.surf w.canvas.clip w.mem (call.run w).2.mem ∧
      ((call.run w).1 ≠ .ok → (call.run w).2.mem = w.mem) := by
  cases call with
  | setOrigin x y => exact ⟨⟨rfl, rfl, hg.clips⟩, rfl, .refl _, fun _ => rfl⟩
  | translate dx dy =>
    have hadd : ∀ (a b : I32) (v : ℤ), (a : ℤ) = v → (satAdd a b : ℤ) = clamp32 (v + b) := by
      rintro a b v rfl
      exact coe_sat _
    exact ⟨⟨hadd _ dx _ hg.originX, hadd _ dy _ hg.originY, hg.clips⟩, rfl, .refl _, fun _ => rfl⟩
  | pushClip r =>
    refine ⟨(hg.pushClip h r).1, ?_, .refl _, fun _ => rfl⟩
    show (gfxCanvasPushClip w.canvas r).2.surf = _
    unfold gfxCanvasPushClip
    split_ifs <;> rfl
  | popClip =>
    refine ⟨hg.popClip.1, ?_, .refl _, fun _ => rfl⟩
    show (gfxCanvasPopClip w.canvas).2.surf = _
    unfold gfxCanvasPopClip
    split <;> rfl
  | fillRect r col op => exact ⟨hg, rfl, h.drawn_fillRect r, fun hst => absurd rfl hst⟩
  | fillMask dx dy mask col =>
    exact ⟨hg, rfl, h.drawn_fillMask dx dy mask, fun hst => absurd rfl hst⟩
  | fillPath answers cells path rule col op =>
    obtain ⟨⟨st, c', m'⟩, hfill⟩ :
        ∃ r, gfxFillPath answers cells w.canvas w.mem path rule col op = r := ⟨_, rfl⟩
    obtain ⟨hdrawn, herror, size, rfl⟩ := h.drawn_fillPath hfill
    have hrun : (CanvasCall.fillPath answers cells path rule col op).run w =
        (st, ⟨{ w.canvas with scratchSize := size }, m'⟩) := by simp only [CanvasCall.run, hfill]
    rw [hrun]
    exact ⟨⟨hg.originX, hg.originY, hg.clips⟩, rfl, hdrawn, herror⟩
  | blit dx dy src srcRect op alpha =>
    exact ⟨hg, rfl, h.drawn_blit dx dy src srcRect alpha hlegal, fun hst => absurd rfl hst⟩

/-- Two pixels of a surface with one address are the same pixel. -/
theorem CanvasOk.addrOf_injective (h : CanvasOk c) {p' : ℤ × ℤ} (hp : c.surf.Mem p)
    (hp' : c.surf.Mem p') (haddr : addrOf c.surf p = addrOf c.surf p') : p = p' := by
  have hwidth := hp'.1.2
  have hsame : p.2 = p'.2 ∧ p'.1 ≤ p.1 ∧ p.1 < p'.1 + 1 := by
    rw [← pixelPtr_mem_span h.width_le hp hp'.1.1 (by omega) hp'.2.1, haddr]
    exact ⟨le_rfl, by show addrOf _ p' < addrOf _ p' + _; omega⟩
  exact Prod.ext (by omega) hsame.1

/-- From a new canvas on whose surface every pixel is in order, every call leaves every pixel of the
surface in order, changes only pixels that are in all clips pushed and not popped, and none if it
fails; `gfxFillRect` blends exactly those of them that are in the rectangle, as seen from the
origin; and clips nest up to a depth of 32. -/
theorem gfxCanvas_draws {s : GfxSurface} {c : GfxCanvas} {m : PixelMem} {w : Drawing} {g : Pen}
    (hinit : gfxCanvasInit s = .ok c) (hm : SurfacePremul s m)
    (hrun : Run (CanvasStep F) (⟨c, m⟩, ⟨(0, 0), []⟩) (w, g)) :
    SurfacePremul s w.mem ∧
    (∀ call : CanvasCall F, call.Legal w → (∀ p, s.Mem p → ¬ Visible s g.clips p →
        (call.run w).2.mem (addrOf s p) = w.mem (addrOf s p)) ∧
      ((call.run w).1 ≠ .ok → (call.run w).2.mem = w.mem)) ∧
    (∀ r col op p, s.Mem p → gfxFillRect w.canvas w.mem r col op (addrOf s p) =
      if Visible s g.clips p ∧ r.Mem (p.1 - g.origin.1, p.2 - g.origin.2) then
        gfxBlendPixel (w.mem (addrOf s p)) (gfxColorSanitize col) 255#32 op
      else w.mem (addrOf s p)) ∧
    (∀ r, (gfxCanvasPushClip w.canvas r).1 = if g.clips.length < 31 then .ok else .errUnsupported) ∧
    (gfxCanvasPopClip w.canvas).1 = if g.clips = [] then .errInvalid else .ok := by
  obtain ⟨hok, htracks, hsurf, hpremul⟩ : CanvasOk w.canvas ∧ g.Tracks w.canvas ∧
      w.canvas.surf = s ∧ SurfacePremul s w.mem := by
    refine hrun.invariant (P := fun w => CanvasOk w.1.canvas ∧ w.2.Tracks w.1.canvas ∧
        w.1.canvas.surf = s ∧ SurfacePremul s w.1.mem)
      ⟨(canvasOk_init hinit).1, tracks_init hinit, (canvasOk_init hinit).2, hm⟩ ?_
    rintro ⟨w, g⟩ w' ⟨hok, htracks, hsurf, hpremul⟩ ⟨call, hlegal, rfl⟩
    obtain ⟨htracks', hsurf', hdrawn, -⟩ := call.run_spec hok htracks hlegal
    refine ⟨⟨?_, ?_, ?_, fun hp => (htracks'.clip_mem_iff.1 hp).1⟩, htracks', hsurf'.trans hsurf,
      fun p hp => hdrawn.premul _ (hpremul p hp)⟩ <;> rw [hsurf']
    · exact hok.width_le
    · exact hok.width_le_max
    · exact hok.height_le_max
  subst hsurf
  refine ⟨hpremul, fun call hlegal => ?_, fun r col op p hp => ?_,
    fun r => (htracks.pushClip (F := F) hok r).2, (htracks.popClip (F := F)).2⟩
  · obtain ⟨-, -, hdrawn, herror⟩ := call.run_spec hok htracks hlegal
    refine ⟨fun p hp hclip => hdrawn.frame _ ?_, herror⟩
    rintro ⟨p', hp', haddr⟩
    obtain rfl := hok.addrOf_injective hp (hok.clip_mem hp') haddr
    exact hclip (htracks.clip_mem_iff.1 hp')
  · simp only [hok.fillRect_apply r hp, htracks.clip_mem_iff, htracks.originX,
      htracks.originY]

/-- Exact arithmetic is one of those that the results hold for. -/
instance : FloatArith ℚ where
  add := (· + ·)
  sub := (· - ·)
  mul := (· * ·)
  div := (· / ·)
  neg := (- ·)
  lt a b := a < b
  le a b := a ≤ b
  lit := id
  trunc a := a.num.tdiv a.den

/-- A surface of one row of three pixels. -/
def threePixels : GfxSurface := ⟨1, ⟨3, by decide⟩, ⟨1, by decide⟩, ⟨3, by decide⟩⟩

/-- The first pixels of the row from the origin on. -/
def firstPixels (n : I32) : GfxRect := ⟨⟨0, zero_i32⟩, ⟨0, zero_i32⟩, n, ⟨1, by decide⟩⟩

/-- The canvas on the surface. -/
def threeCanvas : GfxCanvas :=
  ⟨threePixels, ⟨0, zero_i32⟩, ⟨0, zero_i32⟩, firstPixels threePixels.width, [], 0⟩

/-- The canvas with the origin at the second pixel and a clip pushed that holds just that one. -/
def secondPixel : GfxCanvas :=
  (gfxCanvasPushClip (gfxCanvasTranslate threeCanvas ⟨1, by decide⟩ ⟨0, zero_i32⟩)
    (firstPixels ⟨1, by decide⟩)).2

/-- A fill of two pixels from the origin on colours the one that is in the clip, and not the
next. -/
theorem gfxCanvas_draws_secondPixel :
    let m :=
      gfxFillRect secondPixel (fun _ => 0#32) (firstPixels ⟨2, by decide⟩) 0x80FFFFFF#32 .srcOver
    m (addrOf threePixels (1, 0)) = 0x80808080#32 ∧ m (addrOf threePixels (2, 0)) = 0#32 ∧
      SurfacePremul threePixels m := by
  have hzero : Premul 0#32 := by decide
  have hm : SurfacePremul threePixels fun _ => 0#32 := fun _ _ => hzero
  have hinit : gfxCanvasInit threePixels = .ok threeCanvas := rfl
  have hpushed : Run (CanvasStep ℚ) (⟨threeCanvas, fun _ => 0#32⟩, ⟨(0, 0), []⟩)
      (⟨secondPixel, fun _ => 0#32⟩, ⟨(1, 0), [(firstPixels ⟨1, by decide⟩, 1, 0)]⟩) :=
    (Relation.ReflTransGen.single ⟨.translate ⟨1, by decide⟩ ⟨0, zero_i32⟩, trivial, rfl⟩).tail
      ⟨.pushClip (firstPixels ⟨1, by decide⟩), trivial, rfl⟩
  obtain ⟨-, -, hfill, -⟩ := gfxCanvas_draws hinit hm hpushed
  obtain ⟨hpremul, -⟩ := gfxCanvas_draws hinit hm (hpushed.tail
    ⟨.fillRect (firstPixels ⟨2, by decide⟩) 0x80FFFFFF#32 .srcOver, trivial, rfl⟩)
  refine ⟨?_, ?_, hpremul⟩
  · exact (hfill (firstPixels ⟨2, by decide⟩) 0x80FFFFFF#32 .srcOver (1, 0) (by decide)).trans
      (by decide)
  · exact (hfill (firstPixels ⟨2, by decide⟩) 0x80FFFFFF#32 .srcOver (2, 0) (by decide)).trans
      (by decide)

end Bongos.Gfx
