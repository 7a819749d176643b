import Bongos.BitString
import Bongos.Boot.ElfTables

/-!
# What a relocation changes

The second walk slides a location only if its bytes are still those of the file, so it works on the
numbers of the file throughout. It succeeds if and only if every byte that a location shares with an
earlier one is left as it is by the slide of the earlier one (`Silent`), and then a byte differs
from the loaded image exactly if the slide of some location changes it (`SlidImage`). A slide below
`2^32` changes the low four bytes of a location, so an image that has been slid is not slid again;
but not each of the four, so locations can overlap unnoticed.
-/

namespace Bongos.Boot

open RelocField (toRelocLoc)

open FallibleLoop List

variable {ctx : RelocCtx} {f g : RelocLoc} {fields : List RelocField} {apply : Bool} {i : ℕ}
  {dest dest' image bs bs' : List Byte} {st st' : RelocState} {img : ElfImage} {file : List Byte}
  {fileSize slide : BitVec 64} {type : BitVec 32}

/-! ## The bytes of a location -/

/-- The byte is one of the location. -/
def RelocLoc.Has (f : RelocLoc) (i : ℕ) : Prop := f.off ≤ i ∧ i < f.off + f.width

theorem RelocLoc.bytes_eq_iff :
    f.bytes dest = f.bytes dest' ↔ ∀ i, f.Has i → dest[i]? = dest'[i]? := by
  constructor
  · rintro h i ⟨hle, hlt⟩
    have hi := congrArg (·[i - f.off]?) h
    simp only [bytes] at hi
    rwa [getElem?_take_of_lt (by omega), getElem?_take_of_lt (by omega), getElem?_drop,
      getElem?_drop, Nat.add_sub_cancel' hle] at hi
  · intro h
    refine ext_getElem? fun i => ?_
    simp only [bytes, getElem?_take, getElem?_drop]
    split
    next hi => exact h _ ⟨by omega, by omega⟩
    next => rfl

section Patch

variable (hoff : f.off + f.width ≤ dest.length) (hlen : bs.length = f.width)
include hoff hlen

theorem RelocLoc.getElem?_patch_of_has (hi : f.Has i) : (f.patch dest bs)[i]? = bs[i - f.off]? := by
  obtain ⟨j, rfl⟩ := Nat.exists_eq_add_of_le hi.1
  have hj := hi.2
  rw [Nat.add_sub_cancel_left]
  exact getElem?_store_inside (ε := Unit) (store_eq_ok.2 ⟨by omega, rfl⟩) (by omega)

theorem RelocLoc.getElem?_patch (hi : ¬ f.Has i) : (f.patch dest bs)[i]? = dest[i]? :=
  getElem?_store_outside (ε := Unit) (store_eq_ok.2 ⟨by omega, rfl⟩) (by unfold Has at hi; omega)

end Patch

theorem RelocLoc.length_bytes (h : f.off + f.width ≤ dest.length) :
    (f.bytes dest).length = f.width := by
  rw [bytes, length_take, length_drop]
  omega

theorem RelocField.Ok.length_bytes {f : RelocField} (hf : f.Ok ctx) (hctx : ctx.Ok)
    (hdest : dest.length = ctx.img.span.toNat) : (f.bytes dest).length = f.width := by
  have hoff := hf.off_le hctx
  exact RelocLoc.length_bytes (by omega)

theorem RelocField.Ok.bytes_image {f : RelocField} (hf : f.Ok ctx) (hctx : ctx.Ok)
    (himage : Loaded ctx.img ctx.file ctx.img.segs image) : f.bytes image = f.orig ctx := by
  refine ext_getElem? fun i => ?_
  simp only [RelocLoc.bytes, RelocField.orig, getElem?_take, getElem?_drop]
  split
  next hi => exact hf.getElem?_image hctx himage hi
  next => rfl

/-! ## The value of a location -/

/-- The location has grown by the slide: as a number of 64 bits that did not wrap, or of 32 signed
bits. -/
def Grown (slide : BitVec 64) (type : BitVec 32) (bs bs' : List Byte) : Prop :=
  if type = R_X86_64_64 then leNat bs' = leNat bs + slide.toNat
  else (field 32 bs' 0).toInt = (field 32 bs 0).toInt + slide.toNat

theorem field_eq {w : ℕ} (h : bs.length = w / 8) : field w bs 0 = BitVec.ofNat w (leNat bs) := by
  rw [field, drop_zero, take_of_length_le (by omega)]

theorem grown_of_slidBytes (hslide : slide.toNat ≤ 0x20000000) (hlen : bs.length = relocWidth type)
    (h : slidBytes slide type bs = some bs') : Grown slide type bs bs' := by
  unfold slidBytes at h
  unfold Grown
  unfold relocWidth at hlen
  split at h
  next htype =>
    rw [if_pos htype] at hlen ⊢
    dsimp only at h
    split at h
    · cases h
    next hwrap =>
      cases h
      have hlt : leNat bs < 256 ^ 8 := hlen ▸ leNat_lt bs
      rw [field_eq hlen] at hwrap ⊢
      rw [leNat_leBytes]
      bv_omega
  next htype =>
    rw [if_neg htype] at hlen ⊢
    dsimp only at h
    split at h
    · cases h
    next hfits =>
      cases h
      have hslide' : slide.toInt = slide.toNat := BitVec.toInt_eq_toNat_of_lt (by omega)
      rw [field_eq (length_leBytes 4 _), leNat_leBytes]
      rw [hslide'] at hfits ⊢
      rw [show (256 : ℕ) ^ 4 = 2^32 by rfl, Nat.mod_eq_of_lt (BitVec.isLt _), BitVec.ofNat_toNat,
        BitVec.setWidth_eq, BitVec.toInt_ofInt]
      exact Int.bmod_eq_of_le (by omega) (by omega)

/-- The bytes of a location of the loaded image with the slide added to their number. -/
def RelocLoc.slid (f : RelocLoc) (slide : BitVec 64) (image : List Byte) : List Byte :=
  leBytes f.width (leNat (f.bytes image) + slide.toNat)

theorem leBytes_mod (n v : ℕ) : leBytes n (v % 256 ^ n) = leBytes n v := by
  have h := leBytes_leNat (leBytes n v)
  rwa [length_leBytes, leNat_leBytes] at h

/-- A signed sum that fits has the bytes of the unsigned one. -/
theorem slidBytes_eq (hslide : slide.toNat ≤ 0x20000000) (hlen : (f.bytes image).length = f.width)
    (h : slidBytes slide f.type (f.bytes image) = some bs) : bs = f.slid slide image := by
  rw [RelocLoc.slid, ← leBytes_mod]
  unfold RelocLoc.width relocWidth at hlen ⊢
  unfold slidBytes at h
  split at h
  next htype =>
    rw [if_pos htype] at hlen ⊢
    dsimp only at h
    split at h
    · cases h
    · cases h
      rw [field_eq hlen, BitVec.toNat_add, BitVec.toNat_ofNat]
      exact congrArg _ (by omega)
  next htype =>
    rw [if_neg htype] at hlen ⊢
    dsimp only at h
    split at h
    · cases h
    · cases h
      rw [field_eq hlen, BitVec.toInt_eq_toNat_of_lt (x := slide) (by omega), BitVec.ofInt_add,
        BitVec.ofInt_toInt, BitVec.ofInt_natCast, BitVec.toNat_add, BitVec.toNat_ofNat,
          BitVec.toNat_ofNat]
      exact congrArg _ (by omega)

/-! ## Locations that a walk slides -/

/-- The slide of a location leaves a byte of it as it is. -/
def RelocLoc.Keeps (f : RelocLoc) (slide : BitVec 64) (image : List Byte) (i : ℕ) : Prop :=
  (f.slid slide image)[i - f.off]? = image[i]?

/-- The slide of a location leaves the bytes as they are that it shares with another. -/
def Silent (slide : BitVec 64) (image : List Byte) (f g : RelocLoc) : Prop :=
  ∀ i, f.Has i → g.Has i → f.Keeps slide image i

/-- The image after locations have been slid: it differs from the loaded one where the slide of one
of them changes a byte. -/
structure SlidImage (slide : BitVec 64) (image : List Byte) (seen : List RelocLoc)
    (dest : List Byte) : Prop where
  length : dest.length = image.length
  kept : ∀ i, (∀ f ∈ seen, f.Has i → f.Keeps slide image i) → dest[i]? = image[i]?
  changed : ∀ f ∈ seen, ∀ i, f.Has i → ¬ f.Keeps slide image i →
      dest[i]? = (f.slid slide image)[i - f.off]?

variable {seen : List RelocLoc}

theorem SlidImage.nil : SlidImage slide image [] image :=
  ⟨rfl, fun _ _ => rfl, fun _ hf => absurd hf not_mem_nil⟩

/-- A location still has the bytes of the loaded image exactly if the locations slid so far are
silent. -/
theorem SlidImage.bytes_eq_iff (h : SlidImage slide image seen dest) :
    g.bytes dest = g.bytes image ↔ ∀ f ∈ seen, Silent slide image f g := by
  rw [RelocLoc.bytes_eq_iff]
  constructor
  · intro hsame f hf i hfi hgi
    by_contra hno
    exact hno ((h.changed f hf i hfi hno).symm.trans (hsame i hgi))
  · intro hsilent i hgi
    exact h.kept i fun f hf hfi => hsilent f hf i hfi hgi

theorem SlidImage.patch (h : SlidImage slide image seen dest) (hoff : g.off + g.width ≤ dest.length)
    (hsilent : ∀ f ∈ seen, Silent slide image f g) :
    SlidImage slide image (seen ++ [g]) (g.patch dest (g.slid slide image)) := by
  have hlen : (g.slid slide image).length = g.width := length_leBytes _ _
  refine ⟨(RelocLoc.length_patch (by omega)).trans h.length, fun i hi => ?_,
    fun f hf i hfi hno => ?_⟩
  · by_cases hgi : g.Has i
    · rw [RelocLoc.getElem?_patch_of_has hoff hlen hgi]
      exact hi g (mem_append_right _ mem_cons_self) hgi
    · rw [RelocLoc.getElem?_patch hoff hlen hgi]
      exact h.kept i fun f hf => hi f (mem_append_left _ hf)
  · rcases mem_append.1 hf with hf | hf
    · rw [RelocLoc.getElem?_patch hoff hlen fun hgi => hno (hsilent f hf i hfi hgi)]
      exact h.changed f hf i hfi hno
    · cases mem_singleton.1 hf
      exact RelocLoc.getElem?_patch_of_has hoff hlen hfi

theorem RelocLoc.bytes_eq_slid (hlen : (f.bytes dest).length = f.width)
    (h : ∀ i, f.Has i → dest[i]? = (f.slid slide image)[i - f.off]?) :
    f.bytes dest = f.slid slide image := by
  refine ext_getElem? fun i => ?_
  by_cases hi : i < f.width
  · have hbyte := h (f.off + i) ⟨by omega, by omega⟩
    rwa [Nat.add_sub_cancel_left, ← getElem?_drop, ← getElem?_take_of_lt hi] at hbyte
  · rw [getElem?_eq_none (by omega), getElem?_eq_none (by rw [slid, length_leBytes]; omega)]

/-- A slide changes a byte of every location. -/
theorem RelocLoc.exists_not_keeps (hlen : (f.bytes image).length = f.width)
    (hle : slide.toNat ≤ 0x20000000) (hslide : slide ≠ 0) :
    ∃ i, f.Has i ∧ ¬ f.Keeps slide image i := by
  by_contra hall
  have hpos : slide.toNat ≠ 0 := fun h => hslide (BitVec.eq_of_toNat_eq h)
  have hsame :=
    bytes_eq_slid hlen fun i hi => (not_not.1 fun h => hall ⟨i, hi, h⟩ : f.Keeps slide image i).symm
  have hlt := leNat_lt (f.bytes image)
  have hnum := congrArg leNat hsame
  rw [slid, leNat_leBytes] at hnum
  rw [hlen] at hlt
  unfold width relocWidth at hlt hnum
  split at hlt
  next htype =>
    rw [if_pos htype] at hnum
    omega
  next htype =>
    rw [if_neg htype] at hnum
    omega

/-- The two locations have no byte in common. -/
def RelocLoc.Disjoint (f g : RelocLoc) : Prop := f.off + f.width ≤ g.off ∨ g.off + g.width ≤ f.off

instance symm_disjoint : Std.Symm RelocLoc.Disjoint := ⟨fun _ _ => Or.symm⟩

theorem RelocLoc.Disjoint.not_has (h : f.Disjoint g) (hi : f.Has i) : ¬ g.Has i := by
  unfold Disjoint at h
  unfold Has at *
  omega

theorem RelocLoc.Disjoint.silent (h : f.Disjoint g) : Silent slide image f g :=
  fun _ hf hg => absurd hg (h.not_has hf)

/-- A location that shares no byte with another has been slid. -/
theorem SlidImage.bytes_eq (h : SlidImage slide image seen dest)
    (hdisjoint : seen.Pairwise RelocLoc.Disjoint) (hf : f ∈ seen)
    (hlen : (f.bytes dest).length = f.width) : f.bytes dest = f.slid slide image := by
  refine RelocLoc.bytes_eq_slid hlen fun i hi => ?_
  by_cases hkeeps : f.Keeps slide image i
  · refine (h.kept i fun g hg hgi => ?_).trans hkeeps.symm
    by_cases hfg : f = g
    · exact hfg ▸ hkeeps
    · exact absurd hgi ((hdisjoint.forall hf hg hfg).not_has hi)
  · exact h.changed f hf i hi hkeeps

section Walk

variable (hctx : ctx.Ok) (himage : Loaded ctx.img ctx.file ctx.img.segs image)
  (hfields : ∀ f ∈ fields, f.Ok ctx)
include hctx himage hfields

/-- If the second walk succeeds, every location was silent for those after it. -/
theorem slideAll_slid
    (h : fields.foldlM (fun dest f => slideLocation ctx true f dest) image = .ok dest) :
    (fields.map toRelocLoc).Pairwise (Silent ctx.slide image) ∧
      SlidImage ctx.slide image (fields.map toRelocLoc) dest := by
  refine foldlM_ok (P := fun seen dest => (seen.map toRelocLoc).Pairwise (Silent ctx.slide image) ∧
    SlidImage ctx.slide image (seen.map toRelocLoc) dest) h ⟨Pairwise.nil, SlidImage.nil⟩ ?_
  rintro seen g rest dest dest' hl ⟨hpairs, hseen⟩ hstep
  have hg := hfields g (by simp [hl])
  have hlen := hseen.length.trans himage.length
  have hoff := hg.off_le hctx
  obtain ⟨horig, bs, hbs, -, rfl⟩ := (slideLocation_outcome hctx hg hlen).of_eq_ok hstep
  rw [← hg.bytes_image hctx himage] at horig hbs
  cases slidBytes_eq hctx.slide_le (hg.length_bytes hctx himage.length) hbs
  have hsilent := hseen.bytes_eq_iff.1 horig
  rw [map_append]
  refine ⟨pairwise_append.2 ⟨hpairs, pairwise_singleton _ _, fun f hf g' hg' => ?_⟩,
    hseen.patch (by omega) hsilent⟩
  rw [mem_singleton.1 hg']
  exact hsilent f hf

/-- Locations that can be slid, and are silent for those after them, are all slid. -/
theorem exists_slideAll
    (hslid : ∀ f ∈ fields, ∃ bs, slidBytes ctx.slide f.type (f.orig ctx) = some bs)
    (hsilent : (fields.map toRelocLoc).Pairwise (Silent ctx.slide image)) :
    ∃ dest, fields.foldlM (fun dest f => slideLocation ctx true f dest) image = .ok dest := by
  refine (exists_foldlM_ok
    (P := fun seen dest => SlidImage ctx.slide image (seen.map toRelocLoc) dest) SlidImage.nil
    fun {seen g rest dest} hl hseen => ?_).imp fun _ h => h.1
  have hg := hfields g (by simp [hl])
  have hlen := hseen.length.trans himage.length
  have hoff := hg.off_le hctx
  obtain ⟨bs, hbs⟩ := hslid g (by simp [hl])
  have hbefore : ∀ f ∈ seen.map toRelocLoc, Silent ctx.slide image f g.toRelocLoc := by
    rw [hl, map_append] at hsilent
    exact fun f hf => (pairwise_append.1 hsilent).2.2 f hf _ mem_cons_self
  have horig := (hseen.bytes_eq_iff.2 hbefore).trans (hg.bytes_image hctx himage)
  refine ⟨_, slideLocation_ok hctx hg hlen horig hbs, ?_⟩
  rw [← hg.bytes_image hctx himage] at hbs
  rw [slidBytes_eq hctx.slide_le (hg.length_bytes hctx himage.length) hbs, map_append]
  exact hseen.patch (by omega) hbefore

end Walk

/-- A walk succeeds if the locations can be slid. -/
theorem exists_relocWalk (st : RelocState) (hfields : relocFields ctx = .ok fields)
    (h : fields.foldlM (fun dest f => slideLocation ctx apply f dest) st.dest = .ok dest) :
    ∃ st', relocWalk ctx apply st = .ok st' ∧ st'.dest = dest := by
  obtain ⟨fss, hfss, hfields⟩ := bind_eq_ok.1 hfields
  cases hfields
  refine exists_foldlM_decode (sectionFields ctx) RelocState.dest (fun {st rs fs dest} hfs h =>
    ?_) hfss h
  obtain ⟨o, ho, hfs⟩ := bind_eq_ok.1 hfs
  rw [relocSectionStep, ho]
  cases o with
  | none =>
    cases hfs
    cases h
    exact ⟨st, rfl, rfl⟩
  | some sec =>
    obtain ⟨ess, hess, hfs⟩ := bind_eq_ok.1 hfs
    cases hfs
    refine exists_foldlM_decode (entryFields ctx sec) RelocState.dest
      (fun {st ri es dest} hes h => ?_) hess (by simpa using h)
    obtain ⟨o, ho, hes⟩ := bind_eq_ok.1 hes
    cases hes
    rw [relocStep, ho]
    cases o with
    | none =>
      cases h
      exact ⟨_, rfl, st.count_dest _ _⟩
    | some f =>
      rw [Option.toList_some, foldlM_cons] at h
      obtain ⟨dest, hslide, h⟩ := bind_eq_ok.1 h
      cases h
      show ∃ st', (reading st.dest (slideLocation ctx apply f st.dest) >>= _) = _ ∧ _
      rw [hslide]
      exact ⟨_, rfl, RelocState.count_dest _ _ _⟩

/-! ## Whole calls -/

/-- A call fails without a change, or its first walk succeeds. -/
theorem elfRelocate_cases (himg : img.Accepted fileSize.toNat)
    (hsize : file.length = fileSize.toNat) (hdest : dest.length = img.span.toNat)
    (slide : BitVec 64) :
    (∃ e, elfRelocate img file fileSize dest slide = .error (.status e, dest)) ∨
      ∃ ctx st fields, Checked img file fileSize dest slide ctx st fields ∧
        elfRelocate img file fileSize dest slide = if slide ≠ 0 then relocWalk ctx true st else
          .ok st := by
  obtain ⟨⟨e, left⟩, hcheck, hfault, hleft⟩ | ⟨⟨ctx, st⟩, hcheck, fields, h⟩ :=
    (relocCheck_outcome himg hsize hdest slide).cases
  · cases e with
    | fault => exact absurd rfl hfault
    | status e =>
      cases (show left = dest from hleft)
      exact .inl ⟨e, by rw [elfRelocate, hcheck]; rfl⟩
  · exact .inr ⟨ctx, st, fields, h, by rw [elfRelocate, hcheck]; rfl⟩

/-- The first walk has found the bytes of the file at each location, and they can be slid. -/
theorem Checked.clean (h : Checked img file fileSize dest slide ctx st fields)
    (hdest : dest.length = img.span.toNat) :
    ∀ f ∈ fields, f.bytes dest = f.orig ctx ∧
      ∃ bs, slidBytes ctx.slide f.type (f.orig ctx) = some bs := by
  refine And.right (foldlM_ok
    (P := fun seen dest' => dest' = dest ∧ ∀ f ∈ seen, f.bytes dest = f.orig ctx ∧
      ∃ bs, slidBytes ctx.slide f.type (f.orig ctx) = some bs)
    h.slid ⟨rfl, fun _ h => (nomatch h)⟩ ?_)
  rintro seen f rest dest dest' hl ⟨rfl, hseen⟩ hstep
  have hf := h.ok f (by simp [hl])
  obtain ⟨horig, bs, hbs, -, rfl⟩ :=
    (slideLocation_outcome h.ctx_ok hf (by rw [hdest, h.ctx_img])).of_eq_ok hstep
  exact ⟨rfl, forall_mem_append.2 ⟨hseen, forall_mem_singleton.2 ⟨horig, bs, hbs⟩⟩⟩

theorem Checked.locs_ne_nil (h : Checked img file fileSize dest slide ctx st fields) :
    appliedLocs img file ≠ [] :=
  h.locs_eq ▸ mt map_eq_nil_iff.1 h.ne_nil

/-- The first walk succeeds only on an image that is as it was loaded at every location. -/
theorem Checked.bytes_eq (h : Checked img file fileSize dest slide ctx st fields)
    (himage : Loaded img file img.segs image) (hdest : dest.length = img.span.toNat)
    (hf : f ∈ appliedLocs img file) : f.bytes dest = f.bytes image := by
  rw [← h.locs_eq] at hf
  obtain ⟨f, hmem, rfl⟩ := mem_map.1 hf
  obtain ⟨horig, -⟩ := h.clean hdest f hmem
  obtain ⟨hok, rfl, rfl, -, -, -, hfields, -⟩ := h
  exact horig.trans ((hfields f hmem).bytes_image hok himage).symm

section Second

variable (h : Checked img file fileSize image slide ctx st fields)
  (himage : Loaded img file img.segs image)
include h himage

/-- The second walk succeeds only if the locations are silent. -/
theorem Checked.of_relocWalk (hwalk : relocWalk ctx true st = .ok st') :
    (appliedLocs img file).Pairwise (Silent slide image) ∧
      SlidImage slide image (appliedLocs img file) st'.dest ∧ st'.stats.Balanced := by
  have hlocs := h.locs_eq
  obtain ⟨hok, rfl, rfl, rfl, -, hwalked, -, -, -, rfl, hbalanced⟩ := h
  obtain ⟨-, fields', hfields', hrounds⟩ := (relocWalk_length hok himage.length).of_eq_ok hwalk
  cases hwalked.symm.trans hfields'
  obtain ⟨hsilent, hslid⟩ := slideAll_slid hok himage hrounds.ok hrounds.slid
  rw [hlocs] at hsilent hslid
  exact ⟨hsilent, hslid, hrounds.balanced hbalanced⟩

theorem Checked.exists_relocWalk (hsilent : (appliedLocs img file).Pairwise (Silent slide image)) :
    ∃ st', relocWalk ctx true st = .ok st' := by
  have hclean := h.clean himage.length
  rw [← h.locs_eq] at hsilent
  obtain ⟨hok, rfl, rfl, rfl, -, hwalked, hfields, -, -, rfl, -⟩ := h
  obtain ⟨dest, hdest⟩ := exists_slideAll hok himage hfields (fun f hf => (hclean f hf).2) hsilent
  obtain ⟨st', hst', -⟩ := exists_relocWalk st hwalked hdest
  exact ⟨st', hst'⟩

/-- What the first walk has found of the locations that the tables name. -/
theorem Checked.grown (hf : f ∈ appliedLocs img file) :
    f.off + f.width ≤ image.length ∧ Grown slide f.type (f.bytes image) (f.slid slide image) := by
  have hclean := h.clean himage.length
  rw [← h.locs_eq] at hf
  obtain ⟨f, hmem, rfl⟩ := mem_map.1 hf
  obtain ⟨hok, rfl, rfl, rfl, -, -, hfields, -⟩ := h
  obtain ⟨horig, bs, hbs⟩ := hclean f hmem
  have hlen := (hfields f hmem).length_bytes hok himage.length
  have hoff := (hfields f hmem).off_le hok
  rw [← horig] at hbs
  refine ⟨by rw [himage.length]; omega, ?_⟩
  rw [← slidBytes_eq hok.slide_le hlen hbs]
  exact grown_of_slidBytes hok.slide_le hlen hbs

end Second

/-- **Relocation is exact.** On a freshly loaded image whose locations are apart, `elfRelocate`
changes nothing or adds the slide to every location that the tables name and changes nothing else. A
slide of 0 changes nothing, and an image that has been slid is refused. -/
theorem elfRelocate_exact {file dest image : List Byte} {fileSize sizeMax : BitVec 64}
    {img : ElfImage} (hsize : file.length = fileSize.toNat) (hmax : 2^32 - 1 ≤ sizeMax.toNat)
    (hparse : elfParse file fileSize = .ok img) (hdest : dest.length = img.span.toNat)
    (hload : elfLoad sizeMax img file dest = .ok image) (slide : BitVec 64) :
    ((appliedLocs img file).Pairwise RelocLoc.Disjoint →
      (∃ e, elfRelocate img file fileSize image slide = .error (.status e, image)) ∨
      ∃ st, elfRelocate img file fileSize image slide = .ok st ∧ st.dest.length = image.length ∧
        (∀ f ∈ appliedLocs img file, f.off + f.width ≤ image.length ∧
          Grown slide f.type (f.bytes image) (f.bytes st.dest)) ∧
        (∀ i, (∀ f ∈ appliedLocs img file, ¬ f.Has i) → st.dest[i]? = image[i]?) ∧
        st.stats.total = st.stats.applied + st.stats.skipped) ∧
    (∀ any : List Byte, any.length = img.span.toNat →
      (∃ e, elfRelocate img file fileSize any 0 = .error (.status e, any)) ∨
      ∃ stats, elfRelocate img file fileSize any 0 = .ok ⟨any, stats⟩) ∧
    ∀ st, slide ≠ 0 → elfRelocate img file fileSize image slide = .ok st → ∀ again,
      ∃ e, elfRelocate img file fileSize st.dest again = .error (.status e, st.dest) := by
  have himg := accepted_of_elfParse hparse
  obtain ⟨image, hload', himage⟩ := exists_elfLoad himg hsize hmax hdest
  cases hload.symm.trans hload'
  refine ⟨fun hdisjoint => ?_, fun any hany => ?_, fun st hslide hreloc again => ?_⟩
  · refine (elfRelocate_cases himg hsize himage.length slide).imp id ?_
    rintro ⟨ctx, st, fields, h, hgoes⟩
    by_cases hzero : slide = 0
    · cases h.dest_eq
      refine ⟨st, hgoes.trans (if_neg (not_not.2 hzero)), rfl, fun f hf =>
        ⟨(h.grown himage hf).1, ?_⟩, fun _ _ => rfl, h.balanced⟩
      rw [hzero]
      unfold Grown
      split <;> simp
    · obtain ⟨st', hst'⟩ := h.exists_relocWalk himage (hdisjoint.imp RelocLoc.Disjoint.silent)
      obtain ⟨-, hslid, hbalanced⟩ := h.of_relocWalk himage hst'
      refine ⟨st', hgoes.trans ((if_pos hzero).trans hst'), hslid.length, fun f hf => ?_,
        fun i hi => hslid.kept i fun f hf hfi => absurd hfi (hi f hf), hbalanced⟩
      obtain ⟨hoff, hgrown⟩ := h.grown himage hf
      rw [hslid.bytes_eq hdisjoint hf (RelocLoc.length_bytes (hslid.length.symm ▸ hoff))]
      exact ⟨hoff, hgrown⟩
  · refine (elfRelocate_cases himg hsize hany 0).imp id ?_
    rintro ⟨ctx, ⟨_, stats⟩, fields, h, hgoes⟩
    cases h.dest_eq
    exact ⟨stats, hgoes.trans (if_neg (not_not.2 rfl))⟩
  · obtain ⟨e, herror⟩ | ⟨ctx, st₁, fields, h, hgoes⟩ :=
      elfRelocate_cases himg hsize himage.length slide
    · exact absurd (herror.symm.trans hreloc) nofun
    rw [hgoes, if_pos hslide] at hreloc
    obtain ⟨-, hslid, -⟩ := h.of_relocWalk himage hreloc
    have hlen := hslid.length.trans himage.length
    obtain herror | ⟨ctx', st', fields', h', -⟩ := elfRelocate_cases himg hsize hlen again
    · exact herror
    -- The first walk of the second call finds the changed byte of some location.
    obtain ⟨f, hf⟩ := exists_mem_of_ne_nil _ h'.locs_ne_nil
    obtain ⟨i, hi, hchanged⟩ :=
      RelocLoc.exists_not_keeps (RelocLoc.length_bytes (h.grown himage hf).1)
        (h.ctx_slide ▸ h.ctx_ok.slide_le) hslide
    exact absurd (hslid.bytes_eq_iff.1 (h'.bytes_eq himage hlen hf) f hf i hi hi) hchanged

theorem elfRelocate_exact_typedKernel : ∃ st,
    elfRelocate relocImage (typedKernel 1 8 11 0) 488 relocLoaded 0x200000 = .ok st ∧
      (∀ f ∈ [RelocLoc.mk 1 8, ⟨11, 0⟩],
      Grown 0x200000 f.type (f.bytes relocLoaded) (f.bytes st.dest)) ∧ ∃ e, elfRelocate relocImage
        (typedKernel 1 8 11 0) 488 st.dest 0x400000 = .error (.status e, st.dest) := by
  have happlied : appliedLocs relocImage (typedKernel 1 8 11 0) = [⟨1, 8⟩, ⟨11, 0⟩] := by
    decide +kernel
  obtain ⟨hfirst, -, hagain⟩ := elfRelocate_exact (length_typedKernel 1 8 11 0) relocKernel_args.1
    (by decide +kernel) relocKernel_args.2.2 (elfLoad_typedKernel 1 8 11 0) 0x200000
  rw [happlied] at hfirst
  obtain ⟨e, herror⟩ | ⟨st, hst, -, hgrown, -⟩ := hfirst (pairwise_pair.2 (.inr (by decide)))
  · have hok : (elfRelocate relocImage (typedKernel 1 8 11 0) 488 relocLoaded 0x200000).isOk := by
      decide +kernel
    obtain ⟨st, hst⟩ := exists_ok_of_isOk hok
    exact absurd (hst.symm.trans herror) nofun
  · exact ⟨st, hst, fun f hf => (hgrown f hf).2, hagain st (by decide) hst 0x400000⟩

/-! ## Overlaps that are detected -/

/-- The later location has no byte of the low four of the earlier one. -/
def RelocLoc.Apart (f g : RelocLoc) : Prop :=
  ¬ (f.off = g.off ∧ f.width = g.width) ∧ ∀ i, f.off ≤ i → i < f.off + 4 → ¬ g.Has i

/-- A call with a slide succeeds exactly if the first walk does and every location is silent for
those after it. -/
theorem elfRelocate_ok_iff (himg : img.Accepted fileSize.toNat)
    (hsize : file.length = fileSize.toNat) (himage : Loaded img file img.segs image)
    (hslide : slide ≠ 0) :
    (∃ st, elfRelocate img file fileSize image slide = .ok st) ↔
      (∃ checked, relocCheck img file fileSize image slide = .ok checked) ∧
        (appliedLocs img file).Pairwise (Silent slide image) := by
  obtain ⟨e, hcheck, -⟩ | ⟨⟨ctx, st⟩, hcheck, fields, h⟩ :=
    (relocCheck_outcome himg hsize himage.length slide).cases
  · rw [elfRelocate, hcheck]
    exact ⟨fun ⟨_, h⟩ => (nomatch h), fun ⟨⟨_, h⟩, _⟩ => (nomatch h)⟩
  · have hgoes : elfRelocate img file fileSize image slide = relocWalk ctx true st := by
      rw [elfRelocate, hcheck]
      exact if_pos hslide
    rw [hgoes, hcheck]
    exact ⟨fun ⟨_, hst⟩ => ⟨⟨_, rfl⟩, (h.of_relocWalk himage hst).1⟩, fun hsilent =>
      h.exists_relocWalk himage hsilent.2⟩

/-- **Which overlaps are detected.** Success means that every location is apart from those before
it, except where the first walk accepts the file, some location has a byte of the low four of an
earlier one, and the slide changes none of the bytes that a location shares with an earlier one. -/
theorem elfRelocate_apart_iff {file dest image : List Byte} {fileSize sizeMax slide : BitVec 64}
    {img : ElfImage} (hsize : file.length = fileSize.toNat) (hmax : 2^32 - 1 ≤ sizeMax.toNat)
    (hparse : elfParse file fileSize = .ok img) (hdest : dest.length = img.span.toNat)
    (hload : elfLoad sizeMax img file dest = .ok image) (hslide : slide ≠ 0) :
    ((∃ st, elfRelocate img file fileSize image slide = .ok st) →
      (appliedLocs img file).Pairwise RelocLoc.Apart) ↔
        ¬ ((∃ checked, relocCheck img file fileSize image slide = .ok checked) ∧
          (appliedLocs img file).Pairwise (Silent slide image) ∧
            ¬ (appliedLocs img file).Pairwise RelocLoc.Apart) := by
  have himg := accepted_of_elfParse hparse
  obtain ⟨image, hload', himage⟩ := exists_elfLoad himg hsize hmax hdest
  cases hload.symm.trans hload'
  rw [elfRelocate_ok_iff himg hsize himage hslide]
  constructor
  · rintro h ⟨hchecked, hsilent, hoverlap⟩
    exact hoverlap (h ⟨hchecked, hsilent⟩)
  · rintro h ⟨hchecked, hsilent⟩
    exact not_not.1 fun hoverlap => h ⟨hchecked, hsilent, hoverlap⟩

/-- Two locations of which the later one has the changed byte of the earlier one. -/
theorem elfRelocate_apart_iff_relocKernel :
    (∃ checked, relocCheck relocImage (relocKernel 0 2) 488 relocLoaded 0x200000 = .ok checked) ∧
    (elfRelocate relocImage (relocKernel 0 2) 488 relocLoaded 0x200000).isOk = false ∧
    ¬ (appliedLocs relocImage (relocKernel 0 2)).Pairwise RelocLoc.Apart ∧
    ¬ (appliedLocs relocImage (relocKernel 0 2)).Pairwise (Silent 0x200000 relocLoaded) := by
  have hok : (relocCheck relocImage (relocKernel 0 2) 488 relocLoaded 0x200000).isOk := by
    decide +kernel
  have hchecked := exists_ok_of_isOk hok
  have hfails : (elfRelocate relocImage (relocKernel 0 2) 488 relocLoaded 0x200000).isOk =
      false := by decide +kernel
  have happlied : appliedLocs relocImage (relocKernel 0 2) = [⟨11, 0⟩, ⟨11, 2⟩] := by decide +kernel
  have hoverlap : ¬ (appliedLocs relocImage (relocKernel 0 2)).Pairwise RelocLoc.Apart := by
    rw [happlied]
    exact fun h => (pairwise_pair.1 h).2 2 (by decide) (by decide) ⟨by decide, by decide⟩
  refine ⟨hchecked, hfails, hoverlap, fun hsilent => ?_⟩
  refine (elfRelocate_apart_iff (length_typedKernel 11 0 11 2) relocKernel_args.1
    (by decide +kernel) relocKernel_args.2.2 (elfLoad_typedKernel 11 0 11 2)
    (by decide)).1 ?_ ⟨hchecked, hsilent, hoverlap⟩
  rintro ⟨st, hst⟩
  rw [hst] at hfails
  exact absurd hfails nofun

/-- Two locations that share a byte, and a slide that does not change it: nothing is detected. -/
theorem elfRelocate_overlap_undetected : elfParse (relocKernel 3 0) 488 = .ok relocImage ∧
    elfLoad 0xFFFFFFFF relocImage (relocKernel 3 0) (List.replicate 0x1000 0) = .ok relocLoaded ∧
    (elfRelocate relocImage (relocKernel 3 0) 488 relocLoaded 0x200000).isOk = true ∧
    appliedLocs relocImage (relocKernel 3 0) = [⟨11, 3⟩, ⟨11, 0⟩] ∧
    ¬ RelocLoc.Apart ⟨11, 3⟩ ⟨11, 0⟩ := by
  refine ⟨by decide +kernel,
    elfLoad_typedKernel 11 3 11 0, by decide +kernel, by decide +kernel, ?_⟩
  exact fun h => h.2 3 (by decide) (by decide) ⟨by decide, by decide⟩

end Bongos.Boot
