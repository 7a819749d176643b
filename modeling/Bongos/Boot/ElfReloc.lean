import Bongos.Boot.ElfImage
import Bongos.Boot.Kaslr

/-!
# Relocating the kernel

`elf-reloc.c` adds the slide to the absolute addresses in a loaded image: one walk over the
relocation tables of the file checks every entry, and a second one writes. `loaderKaslrApply` picks
the slide and, if the image cannot be relocated, loads it once more. A call that fails returns the
image that it leaves, as its caller goes on with it. The section headers are read once; the file
does not change.
-/

namespace Bongos.Boot

open FallibleLoop List

/-! ## The tables of the file -/

def SHT_SYMTAB : BitVec 32 := 2

def SHT_RELA : BitVec 32 := 4

def SHT_NOBITS : BitVec 32 := 8

def SHT_REL : BitVec 32 := 9

def SHF_ALLOC : BitVec 64 := 2

def SHF_EXECINSTR : BitVec 64 := 4

def SHN_LORESERVE : BitVec 16 := 0xFF00

def SHN_ABS : BitVec 16 := 0xFFF1

def R_X86_64_NONE : BitVec 32 := 0

def R_X86_64_64 : BitVec 32 := 1

def R_X86_64_PC32 : BitVec 32 := 2

def R_X86_64_PLT32 : BitVec 32 := 4

def R_X86_64_32 : BitVec 32 := 10

def R_X86_64_32S : BitVec 32 := 11

def R_X86_64_PC64 : BitVec 32 := 24

/-- `RawSectionHeader`, the fields that are read. -/
structure RawSectionHeader where
  type : BitVec 32
  flags : BitVec 64
  addr : BitVec 64
  offset : BitVec 64
  size : BitVec 64
  link : BitVec 32
  info : BitVec 32
  entsize : BitVec 64

/-- `readSection`, at an offset of the file. -/
def readSection (file : List Byte) (off : ℕ) : BootM RawSectionHeader := do
  let bs ← load BootStatus file off 64
  return {
    type := field 32 bs 4, flags := field 64 bs 8, addr := field 64 bs 16, offset := field 64 bs 24
    size := field 64 bs 32, link := field 32 bs 40, info := field 32 bs 44
    entsize := field 64 bs 56 }

/-- `RelocCtx`, but for the image that is written. -/
structure RelocCtx where
  img : ElfImage
  file : List Byte
  fileSize : BitVec 64
  slide : BitVec 64
  sections : List RawSectionHeader

def rangeFits (off size limit : BitVec 64) : Prop := off ≤ limit ∧ size ≤ limit - off

instance (off size limit : BitVec 64) : Decidable (rangeFits off size limit) :=
  inferInstanceAs (Decidable (_ ∧ _))

/-- `rs`, `ts` and `ss` of `relocWalk`: a table, the section that it patches and its symbols. -/
structure RelaSection where
  rs : RawSectionHeader
  ts : RawSectionHeader
  ss : RawSectionHeader

variable (ctx : RelocCtx)

/-- The checks of `relocWalk` on a section; none where it goes on to the next. -/
def relocSection (rs : RawSectionHeader) : BootM (Option RelaSection) := do
  rejectIf (rs.type = SHT_REL) .errElfReloc
  if rs.type ≠ SHT_RELA then return none
  else match ctx.sections[rs.info.toNat]? with
    | none => .error (.status .errElfReloc)
    | some ts =>
      if ts.flags &&& SHF_ALLOC = 0 then return none
      else do
        rejectIf (ts.type = SHT_NOBITS) .errElfReloc
        rejectIf (rs.entsize ≠ 24 ∨ ¬ rangeFits rs.offset rs.size ctx.fileSize) .errElfReloc
        rejectIf (rs.size.toNat % 24 ≠ 0) .errElfReloc
        rejectIf (ts.addr + ts.size < ts.addr) .errElfReloc
        rejectIf (rs.link = 0) .errElfReloc
        match ctx.sections[rs.link.toNat]? with
        | none => .error (.status .errElfReloc)
        | some ss => do
          rejectIf (ss.type ≠ SHT_SYMTAB ∨ ss.entsize ≠ 24 ∨
            ¬ rangeFits ss.offset ss.size ctx.fileSize) .errElfReloc
          rejectIf (ss.size.toNat % 24 ≠ 0) .errElfReloc
          return some ⟨rs, ts, ss⟩

inductive SymKind where
  | sec
  | abs
  | und
  deriving DecidableEq

/-- The kind of a symbol. -/
def symKind (shndx : BitVec 16) : BootM SymKind :=
  if shndx = 0 then .ok .und
  else if shndx = SHN_ABS then .ok .abs
  else match ctx.sections[shndx.toNat]? with
    | none => .error (.status .errElfReloc)
    | some sh =>
      if shndx ≥ SHN_LORESERVE ∨ sh.flags &&& SHF_ALLOC = 0 then .error (.status .errElfReloc)
      else .ok .sec

/-- A location of the image that moves with the slide. -/
structure RelocLoc where
  type : BitVec 32
  off : ℕ
  deriving DecidableEq

/-- The width in bytes for a type of relocation. -/
def relocWidth (type : BitVec 32) : ℕ := if type = R_X86_64_64 then 8 else 4

def RelocLoc.width (f : RelocLoc) : ℕ := relocWidth f.type

/-- A location, and where its bytes are in the file. -/
structure RelocField extends RelocLoc where
  fileOff : ℕ
  deriving DecidableEq

def locateReloc (type : BitVec 32) (va tAddr tSize : BitVec 64) : Option RelocField :=
  let width := BitVec.ofNat 64 (relocWidth type)
  if va < tAddr ∨ ¬ rangeFits (va - tAddr) width tSize then none
  else match ctx.img.segs.find? fun s => s.vaddr ≤ va ∧ rangeFits (va - s.vaddr) width s.filesz with
    | none => none
    | some s =>
      let off := va - ctx.img.linkBase
      if ¬ rangeFits off width ctx.img.span ∨ s.offset > ctx.fileSize ∨
          ¬ rangeFits (va - s.vaddr) width (ctx.fileSize - s.offset) then none
      else some ⟨⟨type, off.toNat⟩, (s.offset + (va - s.vaddr)).toNat⟩

/-- What an entry of a table asks for: nothing, or a location to slide. -/
def relocEntry (sec : RelaSection) (ri : ℕ) : BootM (Option RelocField) := do
  let r ← load BootStatus ctx.file (sec.rs.offset.toNat + ri * 24) 24
  let type := (field 64 r 8).setWidth 32
  let symIdx := (field 64 r 8).toNat / 2^32
  if type = R_X86_64_NONE then return none
  else do
    rejectIf (symIdx ≥ sec.ss.size.toNat / 24) .errElfReloc
    let sym ← load BootStatus ctx.file (sec.ss.offset.toNat + symIdx * 24) 24
    let kind ← symKind ctx (field 16 sym 6)
    if type = R_X86_64_64 ∨ type = R_X86_64_32S then
      if kind ≠ .sec then return none
      else match locateReloc ctx type (field 64 r 0) sec.ts.addr sec.ts.size with
        | none => .error (.status .errElfReloc)
        | some f => return some f
    else if type = R_X86_64_32 then do
      rejectIf (kind = .sec) .errElfReloc
      return none
    else if type = R_X86_64_PC32 ∨ type = R_X86_64_PLT32 ∨ type = R_X86_64_PC64 then do
      rejectIf (kind ≠ .sec) .errElfReloc
      return none
    else .error (.status .errElfReloc)

/-! ## The walk -/

/-- What a failing call returns, with the image that it leaves. -/
abbrev RelocM := Except (Failure BootStatus × List Byte)

/-- A callee that does not write to the image. -/
def reading {α : Type} (dest : List Byte) : BootM α → RelocM α
  | .ok a => .ok a
  | .error e => .error (e, dest)

/-- The bytes of a location with the slide added. -/
def slidBytes (slide : BitVec 64) (type : BitVec 32) (bs : List Byte) : Option (List Byte) :=
  if type = R_X86_64_64 then
    let v := field 64 bs 0
    if v + slide < v then none else some (leBytes 8 (v + slide).toNat)
  else
    let sum := (field 32 bs 0).toInt + slide.toInt
    if sum < -0x80000000 ∨ sum > 0x7FFFFFFF then none
    else some (leBytes 4 (BitVec.ofInt 32 sum).toNat)

/-- `slideLocation`: the image after it. -/
def slideLocation (apply : Bool) (f : RelocField) (dest : List Byte) : BootM (List Byte) := do
  let loc ← load BootStatus dest f.off f.width
  let orig ← load BootStatus ctx.file f.fileOff f.width
  rejectIf (loc ≠ orig) .errElfReloc
  match slidBytes ctx.slide f.type loc with
  | none => .error (.status .errElfReloc)
  | some bs => if apply then store BootStatus dest f.off bs else return dest

structure ElfRelocStats where
  relaSections : BitVec 32
  total : BitVec 32
  applied : BitVec 32
  execApplied : BitVec 32
  skipped : BitVec 32
  deriving DecidableEq

/-- The image and the counts of a walk. -/
structure RelocState where
  dest : List Byte
  stats : ElfRelocStats
  deriving DecidableEq

/-- The counts change in the first walk only. -/
def RelocState.count (st : RelocState) (apply : Bool) (f : ElfRelocStats → ElfRelocStats) :
    RelocState :=
  if apply then st else { st with stats := f st.stats }

/-- A round of the inner loop of `relocWalk`. -/
def relocStep (apply : Bool) (sec : RelaSection) (st : RelocState) (ri : ℕ) :
    RelocM RelocState := do
  match ← reading st.dest (relocEntry ctx sec ri) with
  | none => return st.count apply fun c => { c with total := c.total + 1, skipped := c.skipped + 1 }
  | some f => do
    let dest ← reading st.dest (slideLocation ctx apply f st.dest)
    let exec := if sec.ts.flags &&& SHF_EXECINSTR ≠ 0 then 1 else 0
    return { st with dest := dest }.count apply fun c =>
      { c with total := c.total + 1, applied := c.applied + 1, execApplied := c.execApplied + exec }

/-- A round of the outer loop of `relocWalk`. -/
def relocSectionStep (apply : Bool) (st : RelocState) (rs : RawSectionHeader) :
    RelocM RelocState := do
  match ← reading st.dest (relocSection ctx rs) with
  | none => return st
  | some sec =>
    let st := st.count apply fun c => { c with relaSections := c.relaSections + 1 }
    (List.range (sec.rs.size.toNat / 24)).foldlM (relocStep ctx apply sec) st

def relocWalk (apply : Bool) (st : RelocState) : RelocM RelocState :=
  (ctx.sections.drop 1).foldlM (relocSectionStep ctx apply) st

/-- The checks of `elfRelocate` before it walks. -/
def relocPrepare (img : ElfImage) (file : List Byte) (fileSize slide : BitVec 64) :
    BootM RelocCtx := do
  rejectIf (fileSize < 64) .errElfHeader
  let hdr ← load BootStatus file 0 64
  rejectIf (hdr.take 6 ≠ [0x7F, 0x45, 0x4C, 0x46, 2, 1]) .errElfHeader
  rejectIf (relocRangeBad img slide) .errElfRange
  let shoff : BitVec 64 := field 64 hdr 0x28
  let shnum : BitVec 16 := field 16 hdr 0x3C
  rejectIf ((field 16 hdr 0x3A : BitVec 16) ≠ 64 ∨ shnum < 1 ∨ shnum > 256 ∨
    ¬ rangeFits shoff (shnum.setWidth 64 * 64) fileSize) .errElfReloc
  let sections ← (List.range shnum.toNat).mapM fun i => readSection file (shoff.toNat + i * 64)
  return ⟨img, file, fileSize, slide, sections⟩

/-- `elfRelocate` up to its second walk. -/
def relocCheck (img : ElfImage) (file : List Byte) (fileSize : BitVec 64) (dest : List Byte)
    (slide : BitVec 64) : RelocM (RelocCtx × RelocState) := do
  let ctx ← reading dest (relocPrepare img file fileSize slide)
  let st ← relocWalk ctx false ⟨dest, ⟨0, 0, 0, 0, 0⟩⟩
  reading st.dest (rejectIf (st.stats.execApplied = 0) .errElfReloc)
  return (ctx, st)

/-- `elfRelocate`: the image after it and `*stats`. -/
def elfRelocate (img : ElfImage) (file : List Byte) (fileSize : BitVec 64) (dest : List Byte)
    (slide : BitVec 64) : RelocM RelocState := do
  let (ctx, st) ← relocCheck img file fileSize dest slide
  if slide ≠ 0 then relocWalk ctx true st else return st

/-- `loaderKaslrApply`: `*outSlide` and the image after it. -/
def loaderKaslrApply (sizeMax : BitVec 64) (img : ElfImage) (file : List Byte)
    (fileSize : BitVec 64) (dest : List Byte) (seed : ℕ → BitVec 8) (kaslrOn : Bool) :
    BootM (BitVec 64 × List Byte) :=
  let fallback (dest : List Byte) : BootM (BitVec 64 × List Byte) := do
    return (0, ← elfLoad sizeMax img file dest)
  if !kaslrOn then .ok (0, dest)
  else match bootKaslrPickSlide seed img.span with
    | .error _ => fallback dest
    | .ok slide =>
      match elfRelocate img file fileSize dest slide with
      | .ok st => .ok (slide, st.dest)
      | .error (.status _, dest) => fallback dest
      | .error (.fault, _) => .error .fault

/-! ## Accesses inside the buffers -/

variable {ctx : RelocCtx} {rs : RawSectionHeader} {sec : RelaSection} {f : RelocField}
  {apply : Bool} {ri : ℕ}
  {dest dest' image bs bs' : List Byte} {st st' : RelocState} {img : ElfImage} {file : List Byte}
  {fileSize slide sizeMax : BitVec 64} {fields : List RelocField} {type : BitVec 32}

theorem rangeFits_iff {off size limit : BitVec 64} :
    rangeFits off size limit ↔ off.toNat + size.toNat ≤ limit.toNat := by
  unfold rangeFits
  bv_omega

/-- What is known of the file and the slide when the tables are walked. -/
structure RelocCtx.Ok (ctx : RelocCtx) : Prop where
  accepted : ctx.img.Accepted ctx.fileSize.toNat
  size : ctx.file.length = ctx.fileSize.toNat
  slide_le : ctx.slide.toNat ≤ 0x20000000

/-- A table and its symbols are in the file. -/
structure RelaSection.Ok (ctx : RelocCtx) (sec : RelaSection) : Prop where
  entries : sec.rs.offset.toNat + sec.rs.size.toNat ≤ ctx.fileSize.toNat
  symbols : sec.ss.offset.toNat + sec.ss.size.toNat ≤ ctx.fileSize.toNat

theorem outcome_reject {c : Prop} [Decidable c] {e : BootStatus} {α : Type} {f : Unit → BootM α}
    {R : α → Prop} (h : ¬ c → Outcome (· ≠ .fault) R (f ())) :
    Outcome (· ≠ .fault) R (rejectIf c e >>= f) := (outcome_rejectIf c e).bind fun _ => h

theorem relocSection_outcome (ctx : RelocCtx) (rs : RawSectionHeader) :
    Outcome (· ≠ .fault) (fun o => ∀ sec ∈ o, sec.Ok ctx) (relocSection ctx rs) := by
  refine outcome_reject fun _ => ?_
  split
  · rintro _ ⟨⟩
  split
  · rintro ⟨⟩
  split
  · rintro _ ⟨⟩
  refine outcome_reject fun _ => outcome_reject fun hrela => outcome_reject fun _ => ?_
  refine outcome_reject fun _ => outcome_reject fun _ => ?_
  split
  · rintro ⟨⟩
  refine outcome_reject fun hsyms => outcome_reject fun _ => ?_
  simp only [not_or, not_not] at hrela hsyms
  rintro sec ⟨⟩
  exact ⟨rangeFits_iff.1 hrela.2, rangeFits_iff.1 hsyms.2.2⟩

/-- A location is in the part of one segment that stands in the file. -/
structure RelocField.Ok (ctx : RelocCtx) (f : RelocField) : Prop where
  located : ∃ s ∈ ctx.img.segs, ∃ d, d + f.width ≤ s.filesz.toNat ∧
    f.off = s.vaddr.toNat - ctx.img.linkBase.toNat + d ∧ f.fileOff = s.offset.toNat + d

namespace RelocField.Ok

section

variable (hf : f.Ok ctx) (hctx : ctx.Ok)

include hf hctx

theorem off_le : f.off + f.width ≤ ctx.img.span.toNat := by
  obtain ⟨s, hs, d, hd, hoff, -⟩ := hf.located
  have hfits := (hctx.accepted.destOff hs).2
  omega

theorem fileOff_le : f.fileOff + f.width ≤ ctx.file.length := by
  obtain ⟨s, hs, d, hd, -, hoff⟩ := hf.located
  have hfits := (hctx.accepted.ok s hs).inFile
  rw [hctx.size]
  omega

/-- The loaded image has the bytes of the file there. -/
theorem getElem?_image (himage : Loaded ctx.img ctx.file ctx.img.segs image) {i : ℕ}
    (hi : i < f.width) : image[f.off + i]? = ctx.file[f.fileOff + i]? := by
  obtain ⟨s, hs, d, hd, hoff, hfile⟩ := hf.located
  have hbase := hctx.accepted.linkBase_le s hs
  obtain ⟨b, hb, hb'⟩ := himage.fileByte s hs (f.off + i) ⟨by omega, by omega⟩
  have hindex : s.offset.toNat + (f.off + i - (s.vaddr.toNat - ctx.img.linkBase.toNat)) =
      f.fileOff + i := by
    omega
  rw [hb, ← hb', hindex]

end

end RelocField.Ok

theorem relocWidth_le (type : BitVec 32) : relocWidth type ≤ 8 := by
  unfold relocWidth
  split <;> omega

theorem locateReloc_ok (hctx : ctx.Ok) {type : BitVec 32} {va tAddr tSize : BitVec 64}
    (h : locateReloc ctx type va tAddr tSize = some f) : f.Ok ctx := by
  have hwidth : (BitVec.ofNat 64 (relocWidth type)).toNat = relocWidth type := by
    have hle := relocWidth_le type
    rw [BitVec.toNat_ofNat, Nat.mod_eq_of_lt (by omega)]
  unfold locateReloc at h
  dsimp only at h
  split at h
  · cases h
  split at h
  · cases h
  next s hfind =>
    split at h
    · cases h
    cases h
    have hs := mem_of_find?_eq_some hfind
    have hin := find?_some hfind
    rw [decide_eq_true_eq, rangeFits_iff, hwidth] at hin
    obtain ⟨hva, hin⟩ := hin
    have hbase := hctx.accepted.linkBase_le s hs
    have hfile := (hctx.accepted.ok s hs).inFile
    have hva : s.vaddr.toNat ≤ va.toNat := BitVec.le_def.1 hva
    have hd : (va - s.vaddr).toNat = va.toNat - s.vaddr.toNat :=
      BitVec.toNat_sub_of_le (BitVec.le_def.2 hva)
    refine ⟨s, hs, (va - s.vaddr).toNat, hin, ?_, ?_⟩
    · show (va - ctx.img.linkBase).toNat = _
      rw [hd, BitVec.toNat_sub_of_le (BitVec.le_def.2 (by omega))]
      omega
    · rw [BitVec.toNat_add, Nat.mod_eq_of_lt (by omega)]

theorem symKind_outcome (shndx : BitVec 16) :
    Outcome (· ≠ .fault) (fun _ => True) (symKind ctx shndx) := by
  unfold symKind
  split_ifs
  · exact trivial
  · exact trivial
  split
  · exact nofun
  split_ifs
  · exact nofun
  · exact trivial

theorem relocEntry_outcome (hctx : ctx.Ok) (hsec : sec.Ok ctx) (hri : ri < sec.rs.size.toNat / 24) :
    Outcome (· ≠ .fault) (fun o => ∀ f ∈ o, f.Ok ctx) (relocEntry ctx sec ri) := by
  have hsize := hctx.size
  have hentries := hsec.entries
  have hsymbols := hsec.symbols
  refine (outcome_load (by omega)).bind fun r _ => ?_
  dsimp only
  split_ifs
  · rintro _ ⟨⟩
  all_goals
    refine outcome_reject fun hsym => ?_
    refine (outcome_load (by omega)).bind fun sym _ => (symKind_outcome _).bind fun kind _ => ?_
  · split_ifs
    · rintro _ ⟨⟩
    split
    · rintro ⟨⟩
    · rintro f ⟨⟩
      exact locateReloc_ok hctx ‹_›
  · refine outcome_reject fun _ => ?_
    rintro _ ⟨⟩
  · refine outcome_reject fun _ => ?_
    rintro _ ⟨⟩
  · rintro ⟨⟩

/-! ## Sliding a location -/

/-- The bytes of an image at a location. -/
def RelocLoc.bytes (f : RelocLoc) (dest : List Byte) : List Byte := (dest.drop f.off).take f.width

/-- The bytes of the file at a location. -/
def RelocField.orig (ctx : RelocCtx) (f : RelocField) : List Byte :=
  (ctx.file.drop f.fileOff).take f.width

/-- The image with other bytes at a location. -/
def RelocLoc.patch (f : RelocLoc) (dest bs : List Byte) : List Byte :=
  dest.take f.off ++ (bs ++ dest.drop (f.off + bs.length))

theorem length_slidBytes (h : slidBytes slide type bs = some bs') :
    bs'.length = relocWidth type := by
  unfold slidBytes at h
  unfold relocWidth
  split at h
  all_goals
    dsimp only at h
    split at h
    · cases h
    · cases h
      simp [*]

/-- A location still had the bytes of the file, and they were slid. -/
structure Slid (ctx : RelocCtx) (apply : Bool) (f : RelocField) (dest dest' : List Byte) :
    Prop where
  orig : f.bytes dest = f.orig ctx
  bytes : ∃ bs, slidBytes ctx.slide f.type (f.orig ctx) = some bs ∧ bs.length = f.width ∧
    dest' = if apply then f.patch dest bs else dest

section

variable (hctx : ctx.Ok) (hf : f.Ok ctx) (hdest : dest.length = ctx.img.span.toNat)

include hctx hf hdest

theorem slideLocation_outcome :
    Outcome (· ≠ .fault) (Slid ctx apply f dest) (slideLocation ctx apply f dest) := by
  have hoff := hf.off_le hctx
  refine (outcome_load (by omega)).bind fun loc hloc =>
    (outcome_load (hf.fileOff_le hctx)).bind fun orig horig => ?_
  refine outcome_reject fun hsame => ?_
  obtain rfl : loc = orig := not_not.1 hsame
  split
  · exact nofun
  next bs hbs =>
    have hlen : bs.length = f.width := length_slidBytes hbs
    rw [horig] at hbs
    cases apply with
    | false => exact ⟨hloc.symm.trans horig, bs, hbs, hlen, rfl⟩
    | true =>
      refine (outcome_store (by omega)).mono ?_
      rintro _ rfl
      exact ⟨hloc.symm.trans horig, bs, hbs, hlen, rfl⟩

theorem slideLocation_ok
    (horig : f.bytes dest = f.orig ctx) (hbs : slidBytes ctx.slide f.type (f.orig ctx) = some bs) :
    slideLocation ctx true f dest = .ok (f.patch dest bs) := by
  have hoff := hf.off_le hctx
  have hlen : bs.length = f.width := length_slidBytes hbs
  refine bind_eq_ok.2 ⟨f.orig ctx, load_eq_ok.2 ⟨by omega, horig.symm⟩,
    bind_eq_ok.2 ⟨f.orig ctx, ?_, ?_⟩⟩
  · exact load_eq_ok.2 ⟨hf.fileOff_le hctx, rfl⟩
  · refine bind_eq_ok.2 ⟨(), rejectIf_eq_ok.2 (not_not.2 rfl), ?_⟩
    rw [hbs]
    exact store_eq_ok.2 ⟨by omega, rfl⟩

end

theorem RelocLoc.length_patch {f : RelocLoc} (h : f.off + bs.length ≤ dest.length) :
    (f.patch dest bs).length = dest.length :=
  length_of_store (ε := Unit) (store_eq_ok.2 ⟨h, rfl⟩)

theorem Slid.length (h : Slid ctx apply f dest dest') (hctx : ctx.Ok) (hf : f.Ok ctx)
    (hdest : dest.length = ctx.img.span.toNat) : dest'.length = ctx.img.span.toNat := by
  obtain ⟨-, bs, -, hlen, rfl⟩ := h
  have hoff := hf.off_le hctx
  cases apply with
  | false => exact hdest
  | true => exact (f.length_patch (by omega)).trans hdest

/-! ## The locations of a file -/

/-- The location that an entry names, if it is to be slid. -/
def entryFields (ctx : RelocCtx) (sec : RelaSection) (ri : ℕ) : BootM (List RelocField) := do
  return (← relocEntry ctx sec ri).toList

/-- The locations that a table names. -/
def sectionFields (ctx : RelocCtx) (rs : RawSectionHeader) : BootM (List RelocField) := do
  match ← relocSection ctx rs with
  | none => return []
  | some sec => return (← (List.range (sec.rs.size.toNat / 24)).mapM (entryFields ctx sec)).flatten

/-- The locations that a walk slides, in its order. -/
def relocFields (ctx : RelocCtx) : BootM (List RelocField) := do
  return (← (ctx.sections.drop 1).mapM (sectionFields ctx)).flatten

/-- The counts of a walk add up. -/
def ElfRelocStats.Balanced (c : ElfRelocStats) : Prop := c.total = c.applied + c.skipped

/-- What rounds of a walk have done: the locations are fine and were slid in this order. -/
structure Rounds (ctx : RelocCtx) (apply : Bool) (st : RelocState) (fields : List RelocField)
    (st' : RelocState) : Prop where
  ok : ∀ f ∈ fields, f.Ok ctx
  slid : fields.foldlM (fun dest f => slideLocation ctx apply f dest) st.dest = .ok st'.dest
  exec : fields = [] → st'.stats.execApplied = st.stats.execApplied
  balanced : st.stats.Balanced → st'.stats.Balanced

theorem Rounds.append {st1 : RelocState} {more : List RelocField}
    (h : Rounds ctx apply st fields st1) (h' : Rounds ctx apply st1 more st') :
    Rounds ctx apply st (fields ++ more) st' := by
  refine ⟨fun f hf => (mem_append.1 hf).elim (h.ok f) (h'.ok f), ?_, fun hnil => ?_,
    h'.balanced ∘ h.balanced⟩
  · rw [foldlM_append, h.slid]
    exact h'.slid
  · obtain ⟨rfl, rfl⟩ := append_eq_nil_iff.1 hnil
    rw [h'.exec rfl, h.exec rfl]

theorem Rounds.nil (st : RelocState) : Rounds ctx apply st [] st :=
  ⟨fun _ h => (nomatch h), rfl, fun _ => rfl, id⟩

@[simp]
theorem RelocState.count_dest (st : RelocState) (apply : Bool) (c : ElfRelocStats → ElfRelocStats) :
    (st.count apply c).dest = st.dest := by
  cases apply <;> rfl

theorem reading_outcome {α : Type} {x : BootM α} {R : α → Prop} {Q : List Byte → Prop} (hQ : Q dest)
    (hx : Outcome (· ≠ .fault) R x) :
    Outcome (fun e => e.1 ≠ .fault ∧ Q e.2) R (reading dest x) := by
  cases x with
  | ok a => exact hx
  | error e => exact ⟨hx, hQ⟩

section Walk

variable {Q : List Byte → Prop} (hctx : ctx.Ok)
  (hlen : ∀ dest, Q dest → dest.length = ctx.img.span.toNat)
  (hslide : ∀ {dest f dest'}, f.Ok ctx → Q dest → Slid ctx apply f dest dest' → Q dest')
include hctx hlen hslide

theorem relocStep_outcome (hsec : sec.Ok ctx) (hri : ri < sec.rs.size.toNat / 24) (hQ : Q st.dest) :
    Outcome (fun e => e.1 ≠ .fault ∧ Q e.2) (fun st' => Q st'.dest ∧
      ∃ fs, entryFields ctx sec ri = .ok fs ∧
        Rounds ctx apply st fs st') (relocStep ctx apply sec st ri) := by
  refine (reading_outcome hQ (relocEntry_outcome hctx hsec hri).eq_ok).bind fun o ho => ?_
  have hfields : entryFields ctx sec ri = .ok o.toList := by rw [entryFields, ho.1]; rfl
  cases o with
  | none =>
    cases apply with
    | true => exact ⟨hQ, [], hfields, Rounds.nil st⟩
    | false =>
      refine ⟨hQ, [], hfields, fun _ h => (nomatch h), rfl, fun _ => rfl, fun hst => ?_⟩
      show st.stats.total + 1 = st.stats.applied + (st.stats.skipped + 1)
      rw [show st.stats.total = _ from hst, BitVec.add_assoc]
  | some f =>
    have hf := ho.2 f rfl
    refine (reading_outcome hQ (slideLocation_outcome hctx hf (hlen _ hQ)).eq_ok).bind
      fun dest hd => ?_
    refine ⟨by rw [RelocState.count_dest]; exact hslide hf hQ hd.2, [f], hfields,
      forall_mem_singleton.2 hf, ?_, fun h => (nomatch h), fun hst => ?_⟩
    · rw [RelocState.count_dest, foldlM_cons, hd.1]
      rfl
    · cases apply with
      | true => exact hst
      | false =>
        show st.stats.total + 1 = st.stats.applied + 1 + st.stats.skipped
        rw [show st.stats.total = _ from hst, add_right_comm]

theorem relocSectionStep_outcome (hQ : Q st.dest) :
    Outcome (fun e => e.1 ≠ .fault ∧ Q e.2) (fun st' => Q st'.dest ∧
      ∃ fs, sectionFields ctx rs = .ok fs ∧
        Rounds ctx apply st fs st') (relocSectionStep ctx apply st rs) := by
  refine (reading_outcome hQ (relocSection_outcome ctx rs).eq_ok).bind fun o ho => ?_
  cases o with
  | none => exact ⟨hQ, [], by rw [sectionFields, ho.1]; rfl, Rounds.nil st⟩
  | some sec =>
    refine (foldlM_decode (entryFields ctx sec) Rounds.nil
      Rounds.append (fun hri hQ =>
        relocStep_outcome hctx hlen hslide (ho.2 sec rfl) (mem_range.1 hri) hQ)
      (by rwa [RelocState.count_dest])).mono ?_
    rintro st' ⟨hQ', fss, hfss, hrounds⟩
    refine ⟨hQ', fss.flatten, bind_eq_ok.2 ⟨some sec, ho.1, bind_eq_ok.2 ⟨fss, hfss, rfl⟩⟩, ?_⟩
    cases apply with
    | true => exact hrounds
    | false => exact ⟨hrounds.ok, hrounds.slid, hrounds.exec, hrounds.balanced⟩

/-- A walk keeps of the image what every location keeps, also if it fails, and does not leave its
buffers. If it succeeds it has slid the locations of the file, in order. -/
theorem relocWalk_outcome (hQ : Q st.dest) :
    Outcome (fun e => e.1 ≠ .fault ∧ Q e.2) (fun st' => Q st'.dest ∧
      ∃ fields, relocFields ctx = .ok fields ∧
        Rounds ctx apply st fields st') (relocWalk ctx apply st) := by
  refine (foldlM_decode (sectionFields ctx) Rounds.nil
    Rounds.append (fun _ hQ => relocSectionStep_outcome hctx hlen hslide hQ) hQ).mono ?_
  rintro st' ⟨hQ', fss, hfss, hrounds⟩
  exact ⟨hQ', fss.flatten, by rw [relocFields, hfss]; rfl, hrounds⟩

end Walk

theorem relocWalk_length (hctx : ctx.Ok) (hdest : st.dest.length = ctx.img.span.toNat) :
    Outcome (fun e => e.1 ≠ .fault ∧ e.2.length = ctx.img.span.toNat)
      (fun st' => st'.dest.length = ctx.img.span.toNat ∧ ∃ fields, relocFields ctx = .ok fields ∧
        Rounds ctx apply st fields st') (relocWalk ctx apply st) :=
  relocWalk_outcome hctx (fun _ h => h)
    (fun hf hlen h => h.length hctx hf hlen) hdest

/-! ## Whole calls -/

/-- The checks before the walks. -/
theorem relocPrepare_outcome (himg : img.Accepted fileSize.toNat)
    (hsize : file.length = fileSize.toNat) (slide : BitVec 64) :
    Outcome (· ≠ .fault) (fun ctx => ctx.Ok ∧ ctx.img = img ∧ ctx.file = file ∧ ctx.slide = slide)
      (relocPrepare img file fileSize slide) := by
  refine outcome_reject fun hlong => ?_
  refine (outcome_load (by bv_omega)).bind fun hdr _ => outcome_reject fun _ => ?_
  refine outcome_reject fun hrange => outcome_reject fun htable => ?_
  simp only [not_or, not_not, rangeFits_iff] at htable
  refine (mapM_outcome fun i hi => ?_).bind fun sections _ => ?_
  · have hi := mem_range.1 hi
    refine (outcome_load ?_).bind fun _ _ => trivial
    bv_omega
  · have hbase : BOOTINFO_KERNEL_WINDOW_BASE.toNat = 0xFFFFFFFF80000000 := by decide
    have hend : BOOTINFO_KERNEL_WINDOW_END.toNat = 0xFFFFFFFFA0000000 := by decide
    unfold relocRangeBad at hrange
    exact ⟨⟨himg, hsize, by dsimp only; bv_omega⟩, rfl, rfl, rfl⟩

/-- What `elfRelocate` knows after its first walk. -/
structure Checked (img : ElfImage) (file : List Byte) (fileSize : BitVec 64) (dest : List Byte)
    (slide : BitVec 64) (ctx : RelocCtx) (st : RelocState) (fields : List RelocField) : Prop where
  ctx_ok : ctx.Ok
  ctx_img : ctx.img = img
  ctx_file : ctx.file = file
  ctx_slide : ctx.slide = slide
  prepared : relocPrepare img file fileSize slide = .ok ctx
  walked : relocFields ctx = .ok fields
  ok : ∀ f ∈ fields, f.Ok ctx
  slid : fields.foldlM (fun dest f => slideLocation ctx false f dest) dest = .ok dest
  ne_nil : fields ≠ []
  dest_eq : st.dest = dest
  balanced : st.stats.Balanced

section

variable (himg : img.Accepted fileSize.toNat) (hsize : file.length = fileSize.toNat)
  (hdest : dest.length = img.span.toNat)

include himg hsize hdest

/-- The first walk changes nothing. -/
theorem relocCheck_outcome (slide : BitVec 64) :
    Outcome (fun e => e.1 ≠ .fault ∧ e.2 = dest)
      (fun c => ∃ fields, Checked img file fileSize dest slide c.1 c.2 fields)
      (relocCheck img file fileSize dest slide) := by
  refine (reading_outcome (Q := (· = dest)) rfl (relocPrepare_outcome himg hsize slide).eq_ok).bind
    ?_
  rintro ctx ⟨hprep, hok, rfl, rfl, rfl⟩
  refine Outcome.bind
    (relocWalk_outcome (Q := (· = dest)) hok (fun _ h => h ▸ hdest) (fun _ hQ h => ?_) rfl) ?_
  · obtain ⟨-, bs, -, -, h⟩ := h
    exact h.trans hQ
  rintro ⟨dest', stats⟩ ⟨rfl, fields, hfields, hrounds⟩
  refine (reading_outcome (Q := (· = dest')) rfl (outcome_rejectIf _ _)).bind fun _ hexec => ?_
  exact ⟨fields, hok, rfl, rfl, rfl, hprep, hfields, hrounds.ok, hrounds.slid,
    fun hnil => hexec (hrounds.exec hnil), rfl, hrounds.balanced rfl⟩

/-- `elfRelocate` stays in its buffers, and its counts add up. -/
theorem elfRelocate_outcome (slide : BitVec 64) :
    Outcome (fun e => e.1 ≠ .fault ∧ e.2.length = img.span.toNat)
      (fun st => st.dest.length = img.span.toNat ∧
        st.stats.Balanced) (elfRelocate img file fileSize dest slide) := by
  have hcheck := relocCheck_outcome himg hsize hdest slide
  refine (hcheck.imp (fun e h => ⟨h.1, h.2 ▸ hdest⟩) fun _ h => h).bind ?_
  rintro ⟨ctx, st⟩ ⟨fields, hok, rfl, -, -, -, -, -, -, -, hst, hbalanced⟩
  have hlen : st.dest.length = ctx.img.span.toNat := by rw [hst, hdest]
  dsimp only
  split
  · refine (relocWalk_length hok hlen).mono ?_
    rintro st' ⟨hlen', fields, -, hrounds⟩
    exact ⟨hlen', hrounds.balanced hbalanced⟩
  · exact ⟨hlen, hbalanced⟩

end

/-- The bytes of a loaded image are those of the file and zeros, and nothing else. -/
theorem Loaded.unique (h : Loaded img file img.segs dest) (h' : Loaded img file img.segs image) :
    dest = image := by
  refine ext_getElem? fun o => ?_
  by_cases ho : o < img.span.toNat
  · by_cases hs : ∃ s ∈ img.segs, FileBacked img s o
    · obtain ⟨s, hs, hin⟩ := hs
      obtain ⟨b, hb, hfile⟩ := h.fileByte s hs o hin
      obtain ⟨b', hb', hfile'⟩ := h'.fileByte s hs o hin
      rw [hb, hb', ← hfile, ← hfile']
    · have hnone : ∀ s ∈ img.segs, ¬ FileBacked img s o := fun s hs' hin => hs ⟨s, hs', hin⟩
      rw [h.zero o ho hnone, h'.zero o ho hnone]
  · rw [getElem?_eq_none (by rw [h.length]; omega), getElem?_eq_none (by rw [h'.length]; omega)]

/-- A header of a section, with 0 in the fields that are not read. -/
def sectionBytes (type flags addr offset size link info entsize : ℕ) : List Byte :=
  leBytes 4 0 ++ leBytes 4 type ++ leBytes 8 flags ++ leBytes 8 addr ++ leBytes 8 offset ++
    leBytes 8 size ++ leBytes 4 link ++ leBytes 4 info ++ leBytes 8 0 ++ leBytes 8 entsize

/-- The headers, the code, the sections and the symbols of `relocKernel`. -/
def relocKernelHead : List Byte :=
  let base := 0xFFFFFFFF80000000
  [0x7F, 0x45, 0x4C, 0x46, 2, 1, 1, 0] ++ List.replicate 8 0 ++ leBytes 2 2 ++ leBytes 2 62 ++
    leBytes 4 1 ++ leBytes 8 base ++ leBytes 8 64 ++ leBytes 8 136 ++ leBytes 4 0 ++ leBytes 2 64 ++
    leBytes 2 56 ++ leBytes 2 1 ++ leBytes 2 64 ++ leBytes 2 4 ++ leBytes 2 0 ++
    leBytes 4 1 ++ leBytes 4 5 ++ leBytes 8 120 ++ leBytes 8 base ++ leBytes 8 0 ++ leBytes 8 16 ++
    leBytes 8 16 ++ leBytes 8 0x1000 ++
    [0x10, 0, 0, 0x80, 0, 0, 0x80, 0, 0, 0, 0, 0x80, 0, 0, 0, 0] ++ sectionBytes 0 0 0 0 0 0 0 0 ++
    sectionBytes 1 6 base 120 16 0 0 0 ++ sectionBytes 2 0 0 392 48 0 0 24 ++
    sectionBytes 4 0 0 440 48 2 1 24 ++ List.replicate 24 0 ++ leBytes 6 0 ++ leBytes 2 1 ++
    leBytes 16 0

/-- A kernel of 16 bytes with two relocations, of these types and at these offsets. -/
def typedKernel (s a t b : ℕ) : List Byte :=
  relocKernelHead ++ (leBytes 8 (0xFFFFFFFF80000000 + a) ++ leBytes 8 (2^32 + s) ++ leBytes 8 0 ++
    leBytes 8 (0xFFFFFFFF80000000 + b) ++ leBytes 8 (2^32 + t) ++ leBytes 8 0)

/-- The kernel with two relocations of 32 signed bits. -/
abbrev relocKernel (a b : ℕ) : List Byte := typedKernel 11 a 11 b

/-- The description of `relocKernel`. -/
def relocImage : ElfImage :=
  ⟨0xFFFFFFFF80000000, 0xFFFFFFFF80000000, 0x1000, [⟨0xFFFFFFFF80000000, 16, 16, 120, 5⟩]⟩

/-- `relocKernel` in memory. -/
def relocLoaded : List Byte :=
  [0x10, 0, 0, 0x80, 0, 0, 0x80, 0, 0, 0, 0, 0x80, 0, 0, 0, 0] ++ List.replicate 0xFF0 0

theorem length_relocKernelHead : relocKernelHead.length = 440 := by decide +kernel

theorem length_typedKernel (s a t b : ℕ) :
    (typedKernel s a t b).length = (488 : BitVec 64).toNat := by
  simp only [typedKernel, length_append, length_relocKernelHead, length_leBytes]
  rfl

theorem relocKernel_args : 2^32 - 1 ≤ (0xFFFFFFFF : BitVec 64).toNat ∧
    elfParse (relocKernel 8 0) 488 = .ok relocImage ∧
    (List.replicate 0x1000 (0 : Byte)).length = relocImage.span.toNat :=
  ⟨by decide, by decide +kernel, length_replicate ..⟩

theorem elfLoad_typedKernel (s a t b : ℕ) :
    elfLoad 0xFFFFFFFF relocImage (typedKernel s a t b) (List.replicate 0x1000 0) =
      .ok relocLoaded := by
  have hzero : ∀ n, store BootStatus (List.replicate n 0) 0 (List.replicate n 0) =
      .ok (List.replicate n 0) :=
    fun n => store_eq_ok.2 (by simp)
  have hcode : ((typedKernel s a t b).drop 120).take 16 = (relocKernelHead.drop 120).take 16 := by
    rw [typedKernel, drop_append_of_le_length (by rw [length_relocKernelHead]; decide),
      take_append_of_le_length (by rw [length_drop, length_relocKernelHead]; decide)]
  have hseg : loadSegment 0xFFFFFFFF relocImage (typedKernel s a t b) (List.replicate 0x1000 0)
      ⟨0xFFFFFFFF80000000, 16, 16, 120, 5⟩ = .ok relocLoaded := by
    have hload : load BootStatus (typedKernel s a t b) 120 16 =
        .ok ((relocKernelHead.drop 120).take 16) :=
      load_eq_ok.2 ⟨by rw [length_typedKernel]; decide, hcode.symm⟩
    refine bind_eq_ok.2 ⟨(), rejectIf_eq_ok.2 (by decide),
      bind_eq_ok.2 ⟨(), rejectIf_eq_ok.2 (by decide), ?_⟩⟩
    refine bind_eq_ok.2 ⟨_, hload, store_eq_ok.2 ?_⟩
    rw [show (relocKernelHead.drop 120).take 16 =
        [0x10, 0, 0, 0x80, 0, 0, 0x80, 0, 0, 0, 0, 0x80, 0, 0, 0, 0] by decide +kernel,
      drop_replicate, length_replicate]
    exact ⟨by decide, rfl⟩
  refine bind_eq_ok.2 ⟨(), rejectIf_eq_ok.2 (by decide), bind_eq_ok.2 ⟨_, hzero 0x1000, ?_⟩⟩
  exact bind_eq_ok.2 ⟨_, hseg, rfl⟩

/-- **The loader never boots an image that is relocated in part.** The image that `loaderKaslrApply`
returns is the one that a successful relocation has made, or the one that `elfLoad` made, and none
of the two leaves the block of the image. -/
theorem loaderKaslrApply_whole {file dest image : List Byte} {fileSize sizeMax : BitVec 64}
    {img : ElfImage} (hsize : file.length = fileSize.toNat) (hmax : 2^32 - 1 ≤ sizeMax.toNat)
    (hparse : elfParse file fileSize = .ok img) (hdest : dest.length = img.span.toNat)
    (hload : elfLoad sizeMax img file dest = .ok image) (seed : ℕ → BitVec 8) (kaslrOn : Bool) :
    ∃ slide out, loaderKaslrApply sizeMax img file fileSize image seed kaslrOn = .ok (slide, out) ∧
      out.length = img.span.toNat ∧
      ((∃ stats, elfRelocate img file fileSize image slide = .ok ⟨out, stats⟩) ∨ slide = 0 ∧
        out = image) := by
  have himg := accepted_of_elfParse hparse
  obtain ⟨image, hload', hloaded⟩ := exists_elfLoad himg hsize hmax hdest
  cases hload.symm.trans hload'
  -- Loading once more gives the same image, whatever was in the block before.
  have hagain : ∀ dest : List Byte, dest.length = img.span.toNat →
      elfLoad sizeMax img file dest = .ok image := by
    intro dest hdest
    obtain ⟨again, hagain, hloaded'⟩ := exists_elfLoad himg hsize hmax hdest
    rw [hagain, hloaded'.unique hloaded]
  unfold loaderKaslrApply
  cases kaslrOn with
  | false => exact ⟨0, image, rfl, hloaded.length, .inr ⟨rfl, rfl⟩⟩
  | true =>
    cases hpick : bootKaslrPickSlide seed img.span with
    | error e =>
      refine ⟨0, image, ?_, hloaded.length, .inr ⟨rfl, rfl⟩⟩
      show ((elfLoad sizeMax img file image) >>= _) = _
      rw [hagain image hloaded.length]
      rfl
    | ok slide =>
      have hout := elfRelocate_outcome himg hsize hloaded.length slide
      cases hreloc : elfRelocate img file fileSize image slide with
      | ok st =>
        rw [hreloc] at hout
        exact ⟨slide, st.dest, by simp only [hreloc]; rfl, hout.1, .inl ⟨st.stats, hreloc⟩⟩
      | error e =>
        rw [hreloc] at hout
        obtain ⟨hfault, hlen⟩ := hout
        obtain ⟨e, left⟩ := e
        cases e with
        | fault => exact absurd rfl hfault
        | status e =>
          refine ⟨0, image, ?_, hloaded.length, .inr ⟨rfl, rfl⟩⟩
          simp only [hreloc, hagain left hlen]
          rfl

theorem loaderKaslrApply_whole_relocKernel : ∃ slide out,
    loaderKaslrApply 0xFFFFFFFF relocImage (relocKernel 8 0) 488 relocLoaded (fun _ => 7) true =
      .ok (slide, out) ∧ out.length = relocImage.span.toNat ∧
      ((∃ stats, elfRelocate relocImage (relocKernel 8 0) 488 relocLoaded slide =
        .ok ⟨out, stats⟩) ∨ slide = 0 ∧ out = relocLoaded) :=
  loaderKaslrApply_whole (length_typedKernel 11 8 11 0) relocKernel_args.1 relocKernel_args.2.1
    relocKernel_args.2.2 (elfLoad_typedKernel 11 8 11 0) (fun _ => 7) true

end Bongos.Boot
