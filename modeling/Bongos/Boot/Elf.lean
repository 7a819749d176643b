import Bongos.Boot.Status
import Bongos.Buffer

/-!
# The loader of the kernel image

`elf.c`: `elfParse` checks the file of the kernel and describes its segments, and `elfLoad` copies
them into a block of memory. Headers are copied out of the file before they are read, and a copy
that leaves the file is a fault. The first `segCount` entries of `segs` are a list. What a failing
call leaves in `out` or `dest` is not modelled: the callers discard it.
-/

namespace Bongos.Boot

/-- A computation that may end with a `BootStatus` other than `BOOT_OK`. -/
abbrev BootM := Except (Failure BootStatus)

/-! ## Constants -/

/-- Index of the class in `ident`. -/
def EI_CLASS : ℕ := 4

/-- Index of the byte order in `ident`. -/
def EI_DATA : ℕ := 5

/-- Index of the version in `ident`. -/
def EI_VERSION : ℕ := 6

/-- 64-bit objects. -/
def ELFCLASS64 : Byte := 2

/-- Little-endian. -/
def ELFDATA2LSB : Byte := 1

/-- The only version. -/
def EV_CURRENT : ℕ := 1

/-- An executable. -/
def ET_EXEC : BitVec 16 := 2

/-- For x86-64. -/
def EM_X86_64 : BitVec 16 := 62

/-- A segment that is loaded. -/
def PT_LOAD : BitVec 32 := 1

/-- Dynamic linking, refused. -/
def PT_DYNAMIC : BitVec 32 := 2

/-- An interpreter, refused. -/
def PT_INTERP : BitVec 32 := 3

/-- Thread-local storage, refused. -/
def PT_TLS : BitVec 32 := 7

/-- Segments start on a page. -/
def ELF_PAGE_SIZE : BitVec 64 := 4096

/-- The capacity of `segs`. -/
def ELF_MAX_SEGMENTS : ℕ := 8

/-- Executable. -/
def ELF_PF_X : BitVec 32 := 1

/-- Writable. -/
def ELF_PF_W : BitVec 32 := 2

/-- Readable. -/
def ELF_PF_R : BitVec 32 := 4

/-- The kernel is linked above this address. -/
def BOOTINFO_KERNEL_WINDOW_BASE : BitVec 64 := 0xFFFFFFFF80000000

/-- And ends below this one. -/
def BOOTINFO_KERNEL_WINDOW_END : BitVec 64 := 0xFFFFFFFFA0000000

/-- `sizeof(RawElfHeader)`. -/
def ELF_HEADER_SIZE : ℕ := 64

/-- `sizeof(RawProgramHeader)`. -/
def ELF_PHDR_SIZE : ℕ := 56

/-! ## Headers -/

/-- The word of `w` bits whose bytes stand in a header at `off`. -/
def field (w : ℕ) (bs : List Byte) (off : ℕ) : BitVec w :=
  BitVec.ofNat w (leNat ((bs.drop off).take (w / 8)))

/-- `RawElfHeader`, the fields that `elfParse` reads. -/
structure RawElfHeader where
  ident : List Byte
  type : BitVec 16
  machine : BitVec 16
  version : BitVec 32
  entry : BitVec 64
  phoff : BitVec 64
  phentsize : BitVec 16
  phnum : BitVec 16

/-- The copy of the header of the file. -/
def readElfHeader (file : List Byte) : BootM RawElfHeader := do
  let bs ← load BootStatus file 0 ELF_HEADER_SIZE
  return { ident := bs.take 16, type := field 16 bs 16, machine := field 16 bs 18,
           version := field 32 bs 20, entry := field 64 bs 24, phoff := field 64 bs 32,
           phentsize := field 16 bs 54, phnum := field 16 bs 56 }

/-- `RawProgramHeader`, the fields that `elfParse` reads. -/
structure RawProgramHeader where
  type : BitVec 32
  flags : BitVec 32
  offset : BitVec 64
  vaddr : BitVec 64
  filesz : BitVec 64
  memsz : BitVec 64

/-- The copy of a program header. -/
def readProgramHeader (file : List Byte) (off : ℕ) : BootM RawProgramHeader := do
  let bs ← load BootStatus file off ELF_PHDR_SIZE
  return { type := field 32 bs 0, flags := field 32 bs 4, offset := field 64 bs 8,
           vaddr := field 64 bs 16, filesz := field 64 bs 32, memsz := field 64 bs 40 }

/-! ## Parsing -/

/-- A `PT_LOAD` segment. -/
structure ElfSegment where
  vaddr : BitVec 64
  memsz : BitVec 64
  filesz : BitVec 64
  offset : BitVec 64
  flags : BitVec 32
  deriving DecidableEq

/-- What `elfParse` finds out. The image takes `span` bytes from `linkBase` on. -/
structure ElfImage where
  entry : BitVec 64
  linkBase : BitVec 64
  span : BitVec 64
  segs : List ElfSegment
  deriving DecidableEq

/-- What the loop of `elfParse` has collected: `out->segs`, `out->linkBase`, `haveLinkBase` and
`maxEnd`. -/
structure ParseState where
  segs : List ElfSegment
  linkBase : BitVec 64
  haveLinkBase : Bool
  maxEnd : BitVec 64

/-- The check of a `PT_LOAD` header against the segment before it, and the new `linkBase` and
`haveLinkBase`. -/
def placeSegment (st : ParseState) (vaddr : BitVec 64) : BootM (BitVec 64 × Bool) :=
  match st.segs.getLast? with
  | some prev => do
    rejectIf (vaddr < bootAlignUp (prev.vaddr + prev.memsz) ELF_PAGE_SIZE) .errElfSegment
    return (st.linkBase, st.haveLinkBase)
  | none => return (vaddr, true)

/-- The part of a round of `elfParse` that handles a `PT_LOAD` header. -/
def addSegment (fileSize : BitVec 64) (st : ParseState) (ph : RawProgramHeader) :
    BootM ParseState := do
  rejectIf (st.segs.length ≥ ELF_MAX_SEGMENTS) .errElfSegment
  rejectIf (ph.memsz = 0 ∨ ph.memsz < ph.filesz) .errElfSegment
  rejectIf (ph.offset > fileSize ∨ ph.filesz > fileSize - ph.offset) .errElfSegment
  rejectIf (ph.vaddr &&& (ELF_PAGE_SIZE - 1) ≠ 0) .errElfSegment
  rejectIf (ph.flags &&& ELF_PF_R = 0) .errElfSegment
  rejectIf (ph.flags &&& (ELF_PF_W ||| ELF_PF_X) = ELF_PF_W ||| ELF_PF_X) .errElfWx
  -- `vaddr` is below the end of the window before it is subtracted from it.
  rejectIf (ph.vaddr < BOOTINFO_KERNEL_WINDOW_BASE ∨ ph.vaddr ≥ BOOTINFO_KERNEL_WINDOW_END ∨
    ph.memsz > BOOTINFO_KERNEL_WINDOW_END - ph.vaddr) .errElfRange
  let segEnd := ph.vaddr + ph.memsz
  let (linkBase, haveLinkBase) ← placeSegment st ph.vaddr
  return { segs := st.segs ++ [⟨ph.vaddr, ph.memsz, ph.filesz, ph.offset, ph.flags⟩]
           linkBase, haveLinkBase
           maxEnd := if segEnd > st.maxEnd then segEnd else st.maxEnd }

/-- A round of the loop of `elfParse`. -/
def parseSegment (file : List Byte) (fileSize phoff : BitVec 64) (st : ParseState) (i : ℕ) :
    BootM ParseState := do
  let ph ← readProgramHeader file (phoff.toNat + i * ELF_PHDR_SIZE)
  rejectIf (ph.type = PT_INTERP ∨ ph.type = PT_DYNAMIC ∨ ph.type = PT_TLS) .errElfSegment
  if ph.type ≠ PT_LOAD then return st else addSegment fileSize st ph

/-- The search for the segment of the entry point. -/
def checkEntry (entry : BitVec 64) : List ElfSegment → BootM Unit
  | [] => .error (.status .errElfEntry)
  | s :: segs =>
    if s.vaddr ≤ entry ∧ entry < s.vaddr + s.memsz then
      rejectIf (s.flags &&& ELF_PF_X = 0) .errElfEntry
    else checkEntry entry segs

/-- The checks of the header, the table and every entry of it, and the image that they describe. -/
def elfParse (file : List Byte) (fileSize : BitVec 64) : BootM ElfImage := do
  rejectIf (fileSize.toNat < ELF_HEADER_SIZE) .errElfHeader
  let hdr ← readElfHeader file
  rejectIf (hdr.ident.take 4 ≠ [0x7F, 0x45, 0x4C, 0x46]) .errElfHeader
  rejectIf (hdr.ident[EI_CLASS]? ≠ some ELFCLASS64 ∨ hdr.ident[EI_DATA]? ≠ some ELFDATA2LSB ∨
    hdr.ident[EI_VERSION]? ≠ some (BitVec.ofNat 8 EV_CURRENT)) .errElfHeader
  rejectIf (hdr.type ≠ ET_EXEC ∨ hdr.machine ≠ EM_X86_64 ∨
    hdr.version ≠ BitVec.ofNat 32 EV_CURRENT) .errElfHeader
  rejectIf (hdr.phentsize.toNat ≠ ELF_PHDR_SIZE ∨ hdr.phnum < 1 ∨ hdr.phnum > 16) .errElfPhdr
  let phTableBytes := hdr.phnum.setWidth 64 * BitVec.ofNat 64 ELF_PHDR_SIZE
  rejectIf (hdr.phoff > fileSize ∨ phTableBytes > fileSize - hdr.phoff) .errElfPhdr
  let st ← (List.range hdr.phnum.toNat).foldlM (parseSegment file fileSize hdr.phoff)
    ⟨[], 0, false, 0⟩
  rejectIf (!st.haveLinkBase ∨ st.segs.length = 0) .errElfSegment
  checkEntry hdr.entry st.segs
  return { entry := hdr.entry, linkBase := st.linkBase
           span := bootAlignUp st.maxEnd ELF_PAGE_SIZE - st.linkBase, segs := st.segs }

/-! ## Loading -/

/-- A round of the loop of `elfLoad`. -/
def loadSegment (sizeMax : BitVec 64) (img : ElfImage) (file dest : List Byte) (s : ElfSegment) :
    BootM (List Byte) := do
  let destOff := s.vaddr - img.linkBase
  rejectIf (destOff > img.span ∨ s.filesz > img.span - destOff) .errElfSegment
  rejectIf (s.filesz > sizeMax) .errElfRange
  let bs ← load BootStatus file s.offset.toNat s.filesz.toNat
  store BootStatus dest destOff.toNat bs

/-- `elfLoad`: what is in `dest` after it. `sizeMax` is `SIZE_MAX`, which is `2^32 - 1` in the
loader of BIOS machines. -/
def elfLoad (sizeMax : BitVec 64) (img : ElfImage) (file dest : List Byte) :
    BootM (List Byte) := do
  rejectIf (img.span > sizeMax) .errElfRange
  let dest ← store BootStatus dest 0 (List.replicate img.span.toNat 0)
  img.segs.foldlM (loadSegment sizeMax img file) dest

end Bongos.Boot
