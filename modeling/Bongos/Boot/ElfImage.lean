import Bongos.Boot.Elf

/-!
# What the loader accepts and loads

An accepted image is `ElfImage.Accepted`: its segments are apart by whole pages, inside the kernel's
window, and described exactly by `linkBase` and `span`. Loading it cannot fail, and puts every byte
of the file where it belongs and zeros everywhere else.
-/

namespace Bongos.Boot

open BitVec (le_def lt_def toNat_sub_of_le)
open FallibleLoop List

/-! ## Accepted images -/

namespace ElfSegment

/-- The address after the segment. -/
def endAddr (s : ElfSegment) : ℕ := s.vaddr.toNat + s.memsz.toNat

/-- The address after the last page of the segment. -/
def pageEnd (s : ElfSegment) : ℕ := (s.endAddr + 4095) / 4096 * 4096

/-- A segment that may be written. -/
def Writable (s : ElfSegment) : Prop := s.flags &&& ELF_PF_W ≠ 0

/-- A segment that may be executed. -/
def Executable (s : ElfSegment) : Prop := s.flags &&& ELF_PF_X ≠ 0

/-- What every accepted segment satisfies. -/
structure Ok (fileSize : ℕ) (s : ElfSegment) : Prop where
  aligned : s.vaddr.toNat % 4096 = 0
  window_le : BOOTINFO_KERNEL_WINDOW_BASE.toNat ≤ s.vaddr.toNat
  le_window : s.pageEnd ≤ BOOTINFO_KERNEL_WINDOW_END.toNat
  memsz_pos : 0 < s.memsz.toNat
  filesz_le : s.filesz.toNat ≤ s.memsz.toNat
  inFile : s.offset.toNat + s.filesz.toNat ≤ fileSize
  readable : s.flags &&& ELF_PF_R ≠ 0
  notWx : ¬ (s.Writable ∧ s.Executable)

theorem endAddr_le_pageEnd (s : ElfSegment) : s.endAddr ≤ s.pageEnd := by
  unfold pageEnd
  omega

variable {fileSize : ℕ} {s : ElfSegment}

theorem Ok.toNat_end (h : s.Ok fileSize) : (s.vaddr + s.memsz).toNat = s.endAddr := by
  have hle := s.endAddr_le_pageEnd.trans h.le_window
  unfold endAddr at hle ⊢
  rw [BitVec.toNat_add, Nat.mod_eq_of_lt (by omega)]

theorem Ok.toNat_alignUp (h : s.Ok fileSize) :
    (bootAlignUp (s.vaddr + s.memsz) ELF_PAGE_SIZE).toNat = s.pageEnd := by
  have hle := s.endAddr_le_pageEnd.trans h.le_window
  have hwindow : BOOTINFO_KERNEL_WINDOW_END.toNat + 4095 < 2^64 := by decide
  have hround : (bootAlignUp (s.vaddr + s.memsz) ELF_PAGE_SIZE).toNat =
      ((s.vaddr + s.memsz).toNat + 4095) % 2^64 / 4096 * 4096 := toNat_bootAlignUp _
  rw [hround, h.toNat_end, Nat.mod_eq_of_lt (by omega), pageEnd]

end ElfSegment

/-- The pages of `s` end before those of `t` start. -/
def PagesBefore (s t : ElfSegment) : Prop := s.pageEnd ≤ t.vaddr.toNat

/-- What `elfParse` promises of an image it accepts from a file of `fileSize` bytes. -/
structure ElfImage.Accepted (fileSize : ℕ) (img : ElfImage) : Prop where
  count : img.segs.length ≤ ELF_MAX_SEGMENTS
  ok : ∀ s ∈ img.segs, s.Ok fileSize
  ascending : img.segs.Pairwise PagesBefore
  linkBase_mem : ∃ s ∈ img.segs, img.linkBase = s.vaddr
  linkBase_le : ∀ s ∈ img.segs, img.linkBase.toNat ≤ s.vaddr.toNat
  span_mem : ∃ s ∈ img.segs, img.linkBase.toNat + img.span.toNat = s.pageEnd
  le_span : ∀ s ∈ img.segs, s.pageEnd ≤ img.linkBase.toNat + img.span.toNat
  entry : ∃ s ∈ img.segs, s.Executable ∧ s.vaddr.toNat ≤ img.entry.toNat ∧
    img.entry.toNat < s.endAddr

/-! ## Parsing -/

/-- The low bits of an address that the mask of a page keeps. -/
theorem toNat_and_pageOffset (x : BitVec 64) :
    (x &&& (ELF_PAGE_SIZE - 1)).toNat = x.toNat % 4096 := by
  have hmask : (ELF_PAGE_SIZE - 1).toNat = 2^12 - 1 := by decide
  rw [BitVec.toNat_and, hmask, Nat.and_two_pow_sub_one_eq_mod]

variable {flags : BitVec 32} {i o : ℕ} {fileSize phoff sizeMax : BitVec 64} {s t : ElfSegment}
  {st st' : ParseState} {file dest : List Byte} {img : ElfImage}

/-- A flag that is set in the word is all that a mask of this flag keeps. -/
theorem and_flag_eq (h : flags &&& BitVec.twoPow 32 i ≠ 0) :
    flags &&& BitVec.twoPow 32 i = BitVec.twoPow 32 i := by
  rw [BitVec.and_twoPow] at h ⊢
  split_ifs at h ⊢
  · rfl
  · exact absurd rfl h

/-- Two flags that are set are both in the mask of the two. -/
theorem and_writeExec_eq (hw : flags &&& ELF_PF_W ≠ 0)
    (hx : flags &&& ELF_PF_X ≠ 0) : flags &&& (ELF_PF_W ||| ELF_PF_X) = ELF_PF_W ||| ELF_PF_X := by
  have hw' : flags &&& ELF_PF_W = ELF_PF_W := and_flag_eq (i := 1) hw
  have hx' : flags &&& ELF_PF_X = ELF_PF_X := and_flag_eq (i := 0) hx
  rw [BitVec.and_or_distrib_left, hw', hx']

/-- The checks of a `PT_LOAD` header, but the one against the segment before it. -/
theorem segment_ok_of_checks (hsize : ¬ (s.memsz = 0 ∨ s.memsz < s.filesz))
    (hfile : ¬ (s.offset > fileSize ∨ s.filesz > fileSize - s.offset))
    (halign : ¬ s.vaddr &&& (ELF_PAGE_SIZE - 1) ≠ 0) (hread : ¬ s.flags &&& ELF_PF_R = 0)
    (hwx : ¬ s.flags &&& (ELF_PF_W ||| ELF_PF_X) = ELF_PF_W ||| ELF_PF_X)
    (hwindow : ¬ (s.vaddr < BOOTINFO_KERNEL_WINDOW_BASE ∨ s.vaddr ≥ BOOTINFO_KERNEL_WINDOW_END ∨
      s.memsz > BOOTINFO_KERNEL_WINDOW_END - s.vaddr)) : s.Ok fileSize.toNat := by
  rw [not_or] at hsize hfile hwindow
  obtain ⟨hbase, hend⟩ := hwindow
  have hpage : s.vaddr.toNat % 4096 = 0 := by
    rw [← toNat_and_pageOffset, not_not.1 halign]
    rfl
  have hle : s.endAddr ≤ BOOTINFO_KERNEL_WINDOW_END.toNat := by
    unfold ElfSegment.endAddr
    bv_omega
  have hmultiple : BOOTINFO_KERNEL_WINDOW_END.toNat % 4096 = 0 := by decide
  exact {
    aligned := hpage
    window_le := le_def.1 (BitVec.not_lt.1 hbase)
    le_window := by
      unfold ElfSegment.pageEnd
      omega
    memsz_pos := by
      refine Nat.pos_of_ne_zero fun h0 => hsize.1 (BitVec.eq_of_toNat_eq h0)
    filesz_le := le_def.1 (BitVec.not_lt.1 hsize.2)
    inFile := by bv_omega
    readable := hread
    notWx := fun h => hwx (and_writeExec_eq h.1 h.2) }

/-- A header that passes the checks gives a segment that is fine and behind the last one. -/
theorem addSegment_eq_ok {ph : RawProgramHeader}
    (hprev : ∀ s ∈ st.segs, s.Ok fileSize.toNat) (h : addSegment fileSize st ph = .ok st') :
    ∃ s, st'.segs = st.segs ++ [s] ∧ s.Ok fileSize.toNat ∧ st.segs.length < ELF_MAX_SEGMENTS ∧
      (∀ prev ∈ st.segs.getLast?, PagesBefore prev s ∧ st'.linkBase = st.linkBase) ∧
      (st.segs = [] → st'.linkBase = s.vaddr) ∧
      st'.maxEnd = (if s.vaddr + s.memsz > st.maxEnd then s.vaddr + s.memsz else st.maxEnd) := by
  unfold addSegment at h
  simp only [bind_eq_ok, rejectIf_eq_ok] at h
  obtain ⟨-, hcount, -, hsize, -, hfile, -, halign, -, hread, -, hwx, -, hwindow, ⟨base, have_⟩,
    hplace, h⟩ := h
  cases h
  have hok : ElfSegment.Ok fileSize.toNat ⟨ph.vaddr, ph.memsz, ph.filesz, ph.offset, ph.flags⟩ :=
    segment_ok_of_checks hsize hfile halign hread hwx hwindow
  refine ⟨_, rfl, hok, Nat.lt_of_not_le hcount, ?_, ?_, rfl⟩
  · intro prev hmem
    unfold placeSegment at hplace
    rw [Option.mem_def.1 hmem] at hplace
    simp only [bind_eq_ok, rejectIf_eq_ok] at hplace
    obtain ⟨-, hbefore, hplace⟩ := hplace
    cases hplace
    refine ⟨?_, rfl⟩
    have hprev := (hprev prev (mem_of_getLast? hmem)).toNat_alignUp
    unfold PagesBefore
    rw [← hprev]
    exact le_def.1 (BitVec.not_lt.1 hbefore)
  · intro hnil
    unfold placeSegment at hplace
    rw [hnil] at hplace
    cases hplace
    rfl

/-- What the loop of `elfParse` keeps. -/
structure ParseState.Ok (fileSize : ℕ) (st : ParseState) : Prop where
  count : st.segs.length ≤ ELF_MAX_SEGMENTS
  ok : ∀ s ∈ st.segs, s.Ok fileSize
  ascending : st.segs.Pairwise PagesBefore
  linkBase : ∀ s ∈ st.segs.head?, st.linkBase = s.vaddr
  maxEnd_nil : st.segs = [] → st.maxEnd = 0
  maxEnd : ∀ s ∈ st.segs.getLast?, st.maxEnd = s.vaddr + s.memsz

/-- A segment ends behind all those before it. -/
theorem PagesBefore.endAddr_lt {fileSize : ℕ} (h : PagesBefore s t)
    (ht : t.Ok fileSize) : s.endAddr < t.endAddr := by
  have hle := s.endAddr_le_pageEnd
  have hpos := ht.memsz_pos
  unfold PagesBefore at h
  unfold ElfSegment.endAddr at *
  omega

theorem PagesBefore.trans {u : ElfSegment} (hst : PagesBefore s t) (htu : PagesBefore t u) :
    PagesBefore s u := by
  have hle := t.endAddr_le_pageEnd
  unfold PagesBefore ElfSegment.endAddr at *
  omega

/-- A round adds a segment behind the last one, or nothing. -/
theorem ParseState.Ok.step (hst : st.Ok fileSize.toNat)
    (h : parseSegment file fileSize phoff st i = .ok st') : st'.Ok fileSize.toNat := by
  obtain ⟨ph, -, h⟩ := bind_eq_ok.1 h
  obtain ⟨-, -, h⟩ := bind_eq_ok.1 h
  split at h
  · cases h
    exact hst
  obtain ⟨s, hsegs, hs, hlt, hlast, hfirst, hmax⟩ := addSegment_eq_ok hst.ok h
  -- The segments before the last one are before it, and it is before the new one.
  have hbefore : ∀ t ∈ st.segs, PagesBefore t s := by
    intro t ht
    obtain hnil | ⟨init, prev, hinit⟩ := st.segs.eq_nil_or_concat'
    · exact absurd (hnil ▸ ht) not_mem_nil
    have hprev := (hlast prev (by simp [hinit])).1
    have hpairs := hst.ascending
    rw [hinit, pairwise_append] at hpairs
    rw [hinit, mem_append, mem_singleton] at ht
    rcases ht with ht | rfl
    · exact (hpairs.2.2 t ht prev (mem_singleton.2 rfl)).trans hprev
    · exact hprev
  exact {
    count := by
      rw [hsegs, length_append]
      exact hlt
    ok := by
      rw [hsegs]
      exact forall_mem_append.2 ⟨hst.ok, forall_mem_singleton.2 hs⟩
    ascending := by
      rw [hsegs, pairwise_append]
      refine ⟨hst.ascending, pairwise_singleton _ _, fun t ht u hu => ?_⟩
      cases mem_singleton.1 hu
      exact hbefore t ht
    linkBase := by
      intro t ht
      rw [hsegs, head?_append] at ht
      cases hcons : st.segs with
      | nil =>
        rw [hcons] at ht
        cases Option.mem_some_iff.1 ht
        exact hfirst hcons
      | cons u rest =>
        rw [hcons] at ht
        have hu : st.linkBase = t.vaddr := hst.linkBase t (by rw [hcons]; exact ht)
        have hne : st.segs ≠ [] := hcons ▸ cons_ne_nil _ _
        rw [(hlast _ (getLast?_eq_some_getLast hne)).2, hu]
    maxEnd_nil := fun hnil => absurd (hsegs ▸ hnil) (by simp)
    maxEnd := by
      intro t ht
      rw [hsegs, getLast?_concat] at ht
      cases Option.mem_some_iff.1 ht
      rw [hmax, if_pos]
      obtain hnil | ⟨init, prev, hinit⟩ := st.segs.eq_nil_or_concat'
      · have hpos := hs.memsz_pos
        have hend := hs.toNat_end
        unfold ElfSegment.endAddr at hend
        rw [hst.maxEnd_nil hnil, gt_iff_lt, lt_def, hend]
        show 0 < _
        omega
      · have hprev : prev ∈ st.segs := by simp [hinit]
        have hlt := (hbefore prev hprev).endAddr_lt hs
        rw [hst.maxEnd prev (by simp [hinit]), gt_iff_lt, lt_def, hs.toNat_end,
          (hst.ok prev hprev).toNat_end]
        exact hlt }

theorem checkEntry_eq_ok {entry : BitVec 64} {segs : List ElfSegment} {fileSize : ℕ}
    (hsegs : ∀ s ∈ segs, s.Ok fileSize) (h : checkEntry entry segs = .ok ()) :
    ∃ s ∈ segs, s.Executable ∧ s.vaddr.toNat ≤ entry.toNat ∧ entry.toNat < s.endAddr := by
  induction segs with
  | nil => cases h
  | cons s segs ih =>
    unfold checkEntry at h
    split at h
    next hin =>
      refine ⟨s, mem_cons_self, rejectIf_eq_ok.1 h, le_def.1 hin.1, ?_⟩
      rw [← (hsegs s mem_cons_self).toNat_end]
      exact lt_def.1 hin.2
    next hout =>
      obtain ⟨t, ht, htentry⟩ := ih (fun t ht => hsegs t (mem_cons_of_mem s ht)) h
      exact ⟨t, mem_cons_of_mem s ht, htentry⟩

/-- `elfParse` accepts only images that keep its promises. -/
theorem accepted_of_elfParse
    (h : elfParse file fileSize = .ok img) : img.Accepted fileSize.toNat := by
  unfold elfParse at h
  simp only [bind_eq_ok, rejectIf_eq_ok] at h
  obtain ⟨-, -, hdr, -, -, -, -, -, -, -, -, -, -, -, st, hloop, -, hsome, ⟨⟩, hentry, h⟩ := h
  cases h
  have hst : st.Ok fileSize.toNat := by
    refine foldlM_ok (P := fun _ st => ParseState.Ok fileSize.toNat st) hloop ?_ ?_
    · exact ⟨Nat.zero_le _, by simp, Pairwise.nil, by simp, fun _ => rfl, by simp⟩
    · exact fun _ hst hstep => hst.step hstep
  obtain ⟨first, rest, hcons⟩ : ∃ first rest, st.segs = first :: rest := by
    cases hsegs : st.segs with
    | nil => exact absurd (Or.inr (by rw [hsegs]; rfl)) hsome
    | cons first rest => exact ⟨first, rest, rfl⟩
  obtain hnil | ⟨init, last, hconcat⟩ := st.segs.eq_nil_or_concat'
  · exact absurd (hnil.symm.trans hcons) (cons_ne_nil _ _).symm
  have hfirst : first ∈ st.segs := hcons ▸ mem_cons_self
  have hlast : last ∈ st.segs := by simp [hconcat]
  have hbase : st.linkBase = first.vaddr := hst.linkBase first (by simp [hcons])
  have hmax : st.maxEnd = last.vaddr + last.memsz := hst.maxEnd last (by simp [hconcat])
  have hlow : ∀ s ∈ st.segs, first.vaddr.toNat ≤ s.vaddr.toNat := by
    intro s hs
    rw [hcons] at hs
    rcases mem_cons.1 hs with rfl | hs
    · exact Nat.le_refl _
    have hpairs := hcons ▸ hst.ascending
    have hbefore := (pairwise_cons.1 hpairs).1 s hs
    have hle := first.endAddr_le_pageEnd
    unfold PagesBefore ElfSegment.endAddr at *
    omega
  have hhigh : ∀ s ∈ st.segs, s.pageEnd ≤ last.pageEnd := by
    intro s hs
    rw [hconcat, mem_append, mem_singleton] at hs
    rcases hs with hs | rfl
    · have hpairs := hconcat ▸ hst.ascending
      have hbefore := (pairwise_append.1 hpairs).2.2 s hs last (mem_singleton.2 rfl)
      have hle := last.endAddr_le_pageEnd
      unfold PagesBefore ElfSegment.endAddr at *
      omega
    · exact Nat.le_refl _
  have hspan : st.linkBase.toNat + (bootAlignUp st.maxEnd ELF_PAGE_SIZE - st.linkBase).toNat =
      last.pageEnd := by
    have hround := (hst.ok last hlast).toNat_alignUp
    have hle := last.endAddr_le_pageEnd
    have hlow := hlow last hlast
    unfold ElfSegment.endAddr at hle
    rw [hmax, hbase, toNat_sub_of_le (le_def.2 (by omega)), hround]
    omega
  exact {
    count := hst.count
    ok := hst.ok
    ascending := hst.ascending
    linkBase_mem := ⟨first, hfirst, hbase⟩
    linkBase_le := fun s hs => hbase ▸ hlow s hs
    span_mem := ⟨last, hlast, hspan⟩
    le_span := fun s hs => (hhigh s hs).trans (Nat.le_of_eq hspan.symm)
    entry := checkEntry_eq_ok hst.ok hentry }

/-! ## Loading -/

/-- The offset `o` of the image is in the part of the segment that stands in the file. -/
def FileBacked (img : ElfImage) (s : ElfSegment) (o : ℕ) : Prop :=
  s.vaddr.toNat ≤ img.linkBase.toNat + o ∧
    img.linkBase.toNat + o < s.vaddr.toNat + s.filesz.toNat

/-- The block holds the bytes of these segments, and zeros where there are none of them. -/
structure Loaded (img : ElfImage) (file : List Byte) (segs : List ElfSegment) (dest : List Byte) :
    Prop where
  length : dest.length = img.span.toNat
  fileByte : ∀ s ∈ segs, ∀ o, FileBacked img s o → ∃ b, dest[o]? = some b ∧
    file[s.offset.toNat + (o - (s.vaddr.toNat - img.linkBase.toNat))]? = some b
  zero : ∀ o < img.span.toNat, (∀ s ∈ segs, ¬ FileBacked img s o) → dest[o]? = some 0

/-- An offset belongs to one segment only. -/
theorem FileBacked.not_of_pagesBefore {fileSize : ℕ}
    (hs : s.Ok fileSize) (hst : PagesBefore s t) (h : FileBacked img s o) :
    ¬ FileBacked img t o := by
  have hle := s.endAddr_le_pageEnd
  have hfile := hs.filesz_le
  unfold PagesBefore ElfSegment.endAddr FileBacked at *
  omega

/-- Where a segment of an accepted image goes in the block, and that it fits. -/
theorem ElfImage.Accepted.destOff {fileSize : ℕ}
    (himg : img.Accepted fileSize) (hs : s ∈ img.segs) :
    (s.vaddr - img.linkBase).toNat = s.vaddr.toNat - img.linkBase.toNat ∧
      s.vaddr.toNat - img.linkBase.toNat + s.filesz.toNat ≤ img.span.toNat := by
  have hbase := himg.linkBase_le s hs
  have hspan := himg.le_span s hs
  have hend := s.endAddr_le_pageEnd
  have hfile := (himg.ok s hs).filesz_le
  unfold ElfSegment.endAddr at hend
  exact ⟨toNat_sub_of_le (le_def.2 hbase), by omega⟩

/-- The block of an accepted image is not larger than the kernel's window. -/
theorem ElfImage.Accepted.span_le {fileSize : ℕ} (himg : img.Accepted fileSize) :
    img.span.toNat ≤ 0x20000000 := by
  obtain ⟨s, hs, hspan⟩ := himg.span_mem
  obtain ⟨t, ht, hbase⟩ := himg.linkBase_mem
  have hle := (himg.ok s hs).le_window
  have hge := (himg.ok t ht).window_le
  have hroom : BOOTINFO_KERNEL_WINDOW_END.toNat =
      BOOTINFO_KERNEL_WINDOW_BASE.toNat + 0x20000000 := by
    decide
  rw [← hbase] at hge
  omega

section

variable (himg : img.Accepted fileSize.toNat) (hsize : file.length = fileSize.toNat)
  (hmax : 2^32 - 1 ≤ sizeMax.toNat)

include himg hsize hmax

/-- A round of `elfLoad` copies a segment to its place. -/
theorem Loaded.step {seen rest : List ElfSegment}
    (hsegs : img.segs = seen ++ s :: rest) (h : Loaded img file seen dest) :
    ∃ dest', loadSegment sizeMax img file dest s = .ok dest' ∧
      Loaded img file (seen ++ [s]) dest' := by
  have hs : s ∈ img.segs := by simp [hsegs]
  obtain ⟨hoff, hfits⟩ := himg.destOff hs
  have hspan := himg.span_le
  have hbase := himg.linkBase_le s hs
  have hinFile := (himg.ok s hs).inFile
  -- The segments loaded before are apart from this one.
  have hbefore : ∀ t ∈ seen, PagesBefore t s := by
    intro t ht
    have hpairs := hsegs ▸ himg.ascending
    exact (pairwise_append.1 hpairs).2.2 t ht s mem_cons_self
  have hseen : ∀ t ∈ seen, t.Ok fileSize.toNat := fun t ht => himg.ok t (by simp [hsegs, ht])
  obtain ⟨bs, hload⟩ : ∃ bs, load BootStatus file s.offset.toNat s.filesz.toNat = .ok bs :=
    ⟨_, load_eq_ok.2 ⟨by omega, rfl⟩⟩
  have hlen := length_of_load hload
  obtain ⟨dest', hstore⟩ : ∃ dest', store BootStatus dest (s.vaddr - img.linkBase).toNat bs =
      .ok dest' := ⟨_, store_eq_ok.2 ⟨by rw [h.length, hoff, hlen]; exact hfits, rfl⟩⟩
  refine ⟨dest', ?_, ?_⟩
  · have hroom : ¬ (s.vaddr - img.linkBase > img.span ∨
        s.filesz > img.span - (s.vaddr - img.linkBase)) := by
      have hle : s.vaddr - img.linkBase ≤ img.span := le_def.2 (by omega)
      rw [not_or]
      refine ⟨BitVec.not_lt.2 hle, BitVec.not_lt.2 (le_def.2 ?_)⟩
      rw [toNat_sub_of_le hle]
      omega
    have hsmall : ¬ s.filesz > sizeMax := BitVec.not_lt.2 (le_def.2 (by omega))
    unfold loadSegment
    simp only [bind_eq_ok]
    exact ⟨(), rejectIf_eq_ok.2 hroom, (), rejectIf_eq_ok.2 hsmall, bs, hload, hstore⟩
  have hinside : ∀ o, FileBacked img s o → ∃ i < bs.length,
      o = (s.vaddr - img.linkBase).toNat + i := by
    intro o ho
    unfold FileBacked at ho
    exact ⟨o - (s.vaddr.toNat - img.linkBase.toNat), by omega, by omega⟩
  have houtside : ∀ o, ¬ FileBacked img s o → dest'[o]? = dest[o]? := by
    intro o ho
    refine getElem?_store_outside hstore ?_
    unfold FileBacked at ho
    omega
  refine ⟨(length_of_store hstore).trans h.length, ?_, ?_⟩
  · intro t ht o ho
    rcases mem_append.1 ht with ht | ht
    · rw [houtside o (ho.not_of_pagesBefore (hseen t ht) (hbefore t ht))]
      exact h.fileByte t ht o ho
    · cases mem_singleton.1 ht
      obtain ⟨i, hi, rfl⟩ := hinside o ho
      have hb : bs[i]? = some bs[i] := getElem?_eq_getElem hi
      have hfile := getElem?_of_load hload (hlen ▸ hi)
      refine ⟨bs[i], (getElem?_store_inside hstore hi).trans hb, ?_⟩
      rw [← hb, hfile, hoff, Nat.add_sub_cancel_left]
  · intro o ho hno
    rw [houtside o (hno s (by simp))]
    exact h.zero o ho fun t ht => hno t (by simp [ht])

/-- The segments of an accepted image are loaded into a block of its size. -/
theorem exists_elfLoad (hdest : dest.length = img.span.toNat) :
    ∃ dest', elfLoad sizeMax img file dest = .ok dest' ∧ Loaded img file img.segs dest' := by
  have hspan := himg.span_le
  have hsmall : ¬ img.span > sizeMax := BitVec.not_lt.2 (le_def.2 (by omega))
  obtain ⟨zeros, hzero⟩ : ∃ zeros, store BootStatus dest 0 (List.replicate img.span.toNat 0) =
      .ok zeros := ⟨_, store_eq_ok.2 ⟨by simp [hdest], rfl⟩⟩
  have hloaded : Loaded img file [] zeros := by
    refine ⟨(length_of_store hzero).trans hdest, by simp, fun o ho _ => ?_⟩
    have hbyte := getElem?_store_inside hzero (by simpa using ho)
    rw [Nat.zero_add] at hbyte
    rw [hbyte, getElem?_replicate_of_lt ho]
  obtain ⟨dest', hloop, hdest'⟩ := exists_foldlM_ok hloaded fun hsegs h =>
    h.step himg hsize hmax hsegs
  refine ⟨dest', ?_, hdest'⟩
  unfold elfLoad
  simp only [bind_eq_ok]
  exact ⟨(), rejectIf_eq_ok.2 hsmall, zeros, hzero, hloop⟩

end

/-- No two segments of an accepted image hold one offset. -/
theorem ElfImage.Accepted.fileBacked_unique {fileSize j : ℕ} (himg : img.Accepted fileSize)
    (hi : img.segs[i]? = some s) (hj : img.segs[j]? = some t) (hs : FileBacked img s o)
    (ht : FileBacked img t o) : i = j := by
  have hmem_s := mem_of_getElem? hi
  have hmem_t := mem_of_getElem? hj
  obtain ⟨hilt, rfl⟩ := List.getElem?_eq_some_iff.1 hi
  obtain ⟨hjlt, rfl⟩ := List.getElem?_eq_some_iff.1 hj
  have hpairs := pairwise_iff_getElem.1 himg.ascending
  rcases Nat.lt_trichotomy i j with hlt | heq | hlt
  · exact absurd ht (hs.not_of_pagesBefore (himg.ok _ hmem_s) (hpairs i j hilt hjlt hlt))
  · exact heq
  · exact absurd hs (ht.not_of_pagesBefore (himg.ok _ hmem_t) (hpairs j i hjlt hilt hlt))

/-- **Loading the kernel is exact.** An image that `elfParse` accepts keeps its promises, and
`elfLoad` then fills a block of its size with the bytes of the file at the offsets of the one
segment that holds them, and with zeros elsewhere. -/
theorem elfLoad_exact {file dest : List Byte} {fileSize sizeMax : BitVec 64} {img : ElfImage}
    (hsize : file.length = fileSize.toNat) (hmax : 2^32 - 1 ≤ sizeMax.toNat)
    (hparse : elfParse file fileSize = .ok img) (hdest : dest.length = img.span.toNat) :
    img.Accepted fileSize.toNat ∧
    ∃ dest', elfLoad sizeMax img file dest = .ok dest' ∧ dest'.length = img.span.toNat ∧
      ∀ o < img.span.toNat,
        (∀ (i : ℕ) (s : ElfSegment), img.segs[i]? = some s → FileBacked img s o →
          (∃ b, dest'[o]? = some b ∧
            file[s.offset.toNat + (o - (s.vaddr.toNat - img.linkBase.toNat))]? = some b) ∧
          ∀ (j : ℕ) (t : ElfSegment), img.segs[j]? = some t → FileBacked img t o → j = i) ∧
        ((∀ s ∈ img.segs, ¬ FileBacked img s o) → dest'[o]? = some 0) := by
  have himg := accepted_of_elfParse hparse
  obtain ⟨dest', hload, hdest'⟩ := exists_elfLoad himg hsize hmax hdest
  refine ⟨himg, dest', hload, hdest'.length, fun o ho => ⟨fun i s hi hs => ⟨?_, ?_⟩, ?_⟩⟩
  · exact hdest'.fileByte s (mem_of_getElem? hi) o hs
  · exact fun j t hj ht => himg.fileBacked_unique hj hi ht hs
  · exact hdest'.zero o ho

/-- An image of one segment: two bytes of code, and zeros to the end of the page. -/
def tinyKernel : List Byte :=
  [0x7F, 0x45, 0x4C, 0x46, 2, 1, 1, 0] ++ List.replicate 8 0 ++
    leBytes 2 2 ++ leBytes 2 62 ++ leBytes 4 1 ++ leBytes 8 0xFFFFFFFF80000000 ++ leBytes 8 64 ++
    leBytes 8 0 ++ leBytes 4 0 ++ leBytes 2 64 ++ leBytes 2 56 ++ leBytes 2 1 ++ leBytes 2 0 ++
    leBytes 2 0 ++ leBytes 2 0 ++
    leBytes 4 1 ++ leBytes 4 5 ++ leBytes 8 120 ++ leBytes 8 0xFFFFFFFF80000000 ++ leBytes 8 0 ++
    leBytes 8 2 ++ leBytes 8 16 ++ leBytes 8 0x1000 ++ [0xEB, 0xFE]

/-- The description of `tinyKernel`. -/
def tinyImage : ElfImage :=
  ⟨0xFFFFFFFF80000000, 0xFFFFFFFF80000000, 0x1000, [⟨0xFFFFFFFF80000000, 16, 2, 120, 5⟩]⟩

theorem elfLoad_exact_tinyKernel : ∃ dest',
    elfLoad 0xFFFFFFFF tinyImage tinyKernel (List.replicate 0x1000 0xAA) = .ok dest' ∧
      dest'[1]? = some 0xFE ∧ dest'[2]? = some 0 := by
  have hparse : elfParse tinyKernel 122 = .ok tinyImage := by decide +kernel
  obtain ⟨-, dest', hload, -, hbytes⟩ := elfLoad_exact
    (show tinyKernel.length = (122 : BitVec 64).toNat by decide)
    (show 2^32 - 1 ≤ (0xFFFFFFFF : BitVec 64).toNat by decide) hparse
    (show (List.replicate 0x1000 (0xAA : Byte)).length = tinyImage.span.toNat by
      rw [length_replicate]; rfl)
  refine ⟨dest', hload, ?_, ?_⟩
  · obtain ⟨⟨b, hb, hfile⟩, -⟩ := (hbytes 1 (by decide)).1 0 _ rfl ⟨by decide, by decide⟩
    have hbyte : tinyKernel[121]? = some 0xFE := by decide +kernel
    rw [hb, ← hfile]
    exact hbyte
  · refine (hbytes 2 (by decide)).2 fun s hs hin => ?_
    cases mem_singleton.1 hs
    exact absurd hin.2 (by decide)

end Bongos.Boot
