import Bongos.Boot.ElfReloc

/-!
# The relocation tables of a file

Which relocations are applied, read off the bytes of the file (`appliedLocs`): the entries of the
types `R_X86_64_64` and `R_X86_64_32S` against a symbol of an allocated section, in the tables with
addends for allocated sections, in the order of the file. There are no checks here. The walks of
`elfRelocate`, which check every table, symbol and entry, slide these locations if they find nothing
wrong (`Checked.locs_eq`).
-/

namespace Bongos.Boot

open FallibleLoop List

variable {ctx : RelocCtx} {file dest : List Byte} {fileSize slide : BitVec 64} {img : ElfImage}
  {st : RelocState} {fields : List RelocField} {t ri off n k w : ℕ}

/-! ## The tables -/

/-- `e_shnum`. -/
def shnum (file : List Byte) : ℕ := (field 16 file 0x3C : BitVec 16).toNat

/-- A word of the header of a section. -/
def shField (w : ℕ) (file : List Byte) (t off : ℕ) : BitVec w :=
  field w file ((field 64 file 0x28 : BitVec 64).toNat + t * 64 + off)

/-- The header of a section. -/
def sectionAt (file : List Byte) (t : ℕ) : RawSectionHeader where
  type := shField 32 file t 4
  flags := shField 64 file t 8
  addr := shField 64 file t 16
  offset := shField 64 file t 24
  size := shField 64 file t 32
  link := shField 32 file t 40
  info := shField 32 file t 44
  entsize := shField 64 file t 56

/-- The section headers of the file. -/
def fileSections (file : List Byte) : List RawSectionHeader :=
  (List.range (shnum file)).map (sectionAt file)

/-- The file has the section, and it is allocated. -/
def AllocSection (file : List Byte) (t : ℕ) : Prop :=
  t < shnum file ∧ (sectionAt file t).flags &&& SHF_ALLOC ≠ 0

instance (file : List Byte) (t : ℕ) : Decidable (AllocSection file t) :=
  inferInstanceAs (Decidable (_ ∧ _))

/-- The location of an entry of a table, if it is applied. -/
def entryLoc (img : ElfImage) (file : List Byte) (rs : RawSectionHeader) (ri : ℕ) :
    Option RelocLoc :=
  let entry := rs.offset.toNat + ri * 24
  let info : BitVec 64 := field 64 file (entry + 8)
  let type : BitVec 32 := info.setWidth 32
  -- The section of the symbol, `st_shndx`.
  let symbol := (sectionAt file rs.link.toNat).offset.toNat + info.toNat / 2^32 * 24
  let shndx : BitVec 16 := field 16 file (symbol + 6)
  if (type = R_X86_64_64 ∨ type = R_X86_64_32S) ∧
      shndx ≠ 0 ∧ shndx < SHN_LORESERVE ∧ AllocSection file shndx.toNat then
    some ⟨type, (field 64 file entry - img.linkBase).toNat⟩
  else none

/-- The locations of the entries of a section that are applied. -/
def tableLocs (img : ElfImage) (file : List Byte) (rs : RawSectionHeader) : List RelocLoc :=
  if rs.type = SHT_RELA ∧ AllocSection file rs.info.toNat then
    (List.range (rs.size.toNat / 24)).flatMap fun ri => (entryLoc img file rs ri).toList
  else []

/-- The applied relocations of a file, in its order. The first header is not one of a section. -/
def appliedLocs (img : ElfImage) (file : List Byte) : List RelocLoc :=
  ((fileSections file).drop 1).flatMap (tableLocs img file)

/-! ## What the walks read -/

/-- A word of a part of a buffer. -/
theorem field_of_load {bs : List Byte} (h : load BootStatus file off n = .ok bs)
    (hk : k + w / 8 ≤ n) : field w bs k = field w file (off + k) := by
  obtain ⟨-, rfl⟩ := load_eq_ok.1 h
  rw [field, field, drop_take, drop_drop, take_take, min_eq_left (by omega)]

theorem readSection_eq {sh : RawSectionHeader}
    (h : readSection file ((field 64 file 0x28 : BitVec 64).toNat + t * 64) = .ok sh) :
    sh = sectionAt file t := by
  obtain ⟨bs, hbs, h⟩ := bind_eq_ok.1 h
  cases h
  simp only [sectionAt, shField]
  congr 1 <;> exact field_of_load hbs (by decide)

/-- The sections of the context are those of the file. -/
theorem sections_of_relocPrepare (h : relocPrepare img file fileSize slide = .ok ctx) :
    ctx.sections = fileSections file := by
  unfold relocPrepare at h
  simp only [bind_eq_ok, rejectIf_eq_ok] at h
  obtain ⟨-, -, hdr, hhdr, -, -, -, -, -, -, sections, hsections, h⟩ := h
  cases h
  rw [field_of_load hhdr (by decide), field_of_load hhdr (by decide), Nat.zero_add,
    Nat.zero_add] at hsections
  have hmap := map_of_mapM id hsections fun _ _ _ => readSection_eq
  rwa [map_id] at hmap

theorem locateReloc_loc {type : BitVec 32} {va tAddr tSize : BitVec 64} {f : RelocField}
    (h : locateReloc ctx type va tAddr tSize = some f) :
    f.toRelocLoc = ⟨type, (va - ctx.img.linkBase).toNat⟩ := by
  unfold locateReloc at h
  dsimp only at h
  split at h
  · cases h
  split at h
  · cases h
  · split at h
    · cases h
    · cases h
      rfl

section Walks

variable {rs sh : RawSectionHeader} {sec : RelaSection} {shndx : BitVec 16}
  (hsections : ctx.sections = fileSections ctx.file)

include hsections

theorem getElem?_sections (h : ctx.sections[t]? = some sh) :
    t < shnum ctx.file ∧ sh = sectionAt ctx.file t := by
  rw [hsections, fileSections, getElem?_map, Option.map_eq_some_iff] at h
  obtain ⟨i, hi, rfl⟩ := h
  obtain ⟨hlt, rfl⟩ := List.getElem?_eq_some_iff.1 hi
  rw [length_range] at hlt
  rw [getElem_range]
  exact ⟨hlt, rfl⟩

/-- A symbol is one of an allocated section, if it is not undefined or absolute. -/
theorem symKind_iff {kind : SymKind} (h : symKind ctx shndx = .ok kind) :
    kind = .sec ↔ shndx ≠ 0 ∧ shndx < SHN_LORESERVE ∧ AllocSection ctx.file shndx.toNat := by
  unfold symKind at h
  split_ifs at h with hund habs
  · cases h
    exact iff_of_false (by decide) fun h => h.1 hund
  · cases h
    refine iff_of_false (by decide) fun h => absurd h.2.1 ?_
    rw [habs]
    decide
  · split at h
    · cases h
    next sh hsh =>
      obtain ⟨hlt, rfl⟩ := getElem?_sections hsections hsh
      split_ifs at h with hbad
      cases h
      rw [not_or] at hbad
      exact iff_of_true rfl ⟨hund, BitVec.not_le.1 hbad.1, hlt, hbad.2⟩

/-- A table that is walked is one with addends, for an allocated section. -/
theorem relocSection_eq {o : Option RelaSection} (h : relocSection ctx rs = .ok o) :
    (rs.type = SHT_RELA ∧ AllocSection ctx.file rs.info.toNat ↔ o.isSome = true) ∧
      ∀ sec ∈ o, sec.rs = rs ∧ sec.ss = sectionAt ctx.file rs.link.toNat := by
  obtain ⟨-, -, h⟩ := bind_eq_ok.1 h
  split_ifs at h with hrela
  · cases h
    exact ⟨iff_of_false (fun h => hrela h.1) (by decide), fun _ h =>
      absurd h (Option.not_mem_none _)⟩
  split at h
  · cases h
  next ts hts =>
    obtain ⟨hlt, rfl⟩ := getElem?_sections hsections hts
    split_ifs at h with halloc
    · cases h
      exact ⟨iff_of_false (fun h => h.2.2 halloc) (by decide), fun _ h =>
        absurd h (Option.not_mem_none _)⟩
    simp only [bind_eq_ok] at h
    obtain ⟨-, -, -, -, -, -, -, -, -, -, h⟩ := h
    split at h
    · cases h
    next ss hss =>
      obtain ⟨-, rfl⟩ := getElem?_sections hsections hss
      obtain ⟨-, -, h⟩ := bind_eq_ok.1 h
      obtain ⟨-, -, h⟩ := bind_eq_ok.1 h
      cases h
      refine ⟨iff_of_true ⟨not_not.1 hrela, hlt, halloc⟩ rfl, fun sec hsec => ?_⟩
      cases Option.mem_some.1 hsec
      exact ⟨rfl, rfl⟩

/-- What an entry asks for is what the tables say. -/
theorem relocEntry_eq {o : Option RelocField} (hss : sec.ss = sectionAt ctx.file sec.rs.link.toNat)
    (h : relocEntry ctx sec ri = .ok o) :
    o.map RelocField.toRelocLoc = entryLoc ctx.img ctx.file sec.rs ri := by
  obtain ⟨r, hr, h⟩ := bind_eq_ok.1 h
  have hva : (field 64 r 0 : BitVec 64) = field 64 ctx.file (sec.rs.offset.toNat + ri * 24) :=
    field_of_load hr (by decide)
  dsimp only at h
  rw [field_of_load hr (by decide), hva, hss] at h
  unfold entryLoc
  dsimp only
  generalize (field 64 ctx.file (sec.rs.offset.toNat + ri * 24 + 8)).setWidth 32 = type at h ⊢
  by_cases hnone : type = R_X86_64_NONE
  · rw [if_pos hnone] at h
    cases h
    rw [if_neg fun happly => absurd (hnone ▸ happly.1) (by decide)]
    rfl
  rw [if_neg hnone] at h
  obtain ⟨-, -, h⟩ := bind_eq_ok.1 h
  obtain ⟨sym, hsym, h⟩ := bind_eq_ok.1 h
  obtain ⟨kind, hkind, h⟩ := bind_eq_ok.1 h
  rw [field_of_load hsym (by decide)] at hkind
  have hsec := symKind_iff hsections hkind
  by_cases hmoves : type = R_X86_64_64 ∨ type = R_X86_64_32S
  · rw [if_pos hmoves] at h
    by_cases hkind : kind = .sec
    · rw [if_neg (not_not.2 hkind)] at h
      rw [if_pos ⟨hmoves, hsec.1 hkind⟩]
      split at h
      · cases h
      next f hf =>
        cases h
        rw [Option.map_some, locateReloc_loc hf]
    · rw [if_pos hkind] at h
      cases h
      rw [if_neg fun happly => hkind (hsec.2 happly.2)]
      rfl
  · -- The other types are not applied, whatever is checked.
    rw [if_neg hmoves] at h
    rw [if_neg fun happly => hmoves happly.1]
    split_ifs at h
    all_goals
      obtain ⟨-, -, h⟩ := bind_eq_ok.1 h
      cases h
      rfl

theorem sectionFields_eq {fs : List RelocField} (hfields : sectionFields ctx rs = .ok fs) :
    fs.map RelocField.toRelocLoc = tableLocs ctx.img ctx.file rs := by
  obtain ⟨o, ho, h⟩ := bind_eq_ok.1 hfields
  obtain ⟨hwalked, hsec⟩ := relocSection_eq hsections ho
  unfold tableLocs
  cases o with
  | none =>
    cases h
    rw [if_neg fun h => absurd (hwalked.1 h) (by decide)]
    rfl
  | some sec =>
    obtain ⟨rfl, hss⟩ := hsec sec rfl
    obtain ⟨fss, hfss, h⟩ := bind_eq_ok.1 h
    cases h
    rw [if_pos (hwalked.2 rfl), map_flatten, flatMap_def]
    refine congrArg flatten (map_of_mapM _ hfss fun ri _ fs hfs => ?_)
    obtain ⟨o, ho, hfs⟩ := bind_eq_ok.1 hfs
    cases hfs
    rw [← relocEntry_eq hsections hss ho]
    cases o <;> rfl

end Walks

/-- The locations that the walks slide are the applied relocations of the file. -/
theorem Checked.locs_eq (h : Checked img file fileSize dest slide ctx st fields) :
    fields.map RelocField.toRelocLoc = appliedLocs img file := by
  have hsections := sections_of_relocPrepare h.prepared
  rw [← h.ctx_img, ← h.ctx_file] at *
  obtain ⟨fss, hfss, hfields⟩ := bind_eq_ok.1 h.walked
  cases hfields
  rw [appliedLocs, map_flatten, flatMap_def, ← hsections]
  exact congrArg flatten (map_of_mapM _ hfss fun rs _ fs hfs => sectionFields_eq hsections hfs)

end Bongos.Boot
