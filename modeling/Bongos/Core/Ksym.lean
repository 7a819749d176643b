import Bongos.Tools.KsymsEncode
import Mathlib.Data.Option.Basic

/-!
# Looking a symbol up

`ksym.c`: the lookup of an address in the table that `ksymsEncode` writes. Every read is checked
against the size of the table, and every failure is `STATUS_ERR_NOT_FOUND`, which is `none` here. A
lookup that succeeds returns the bytes written to `nameOut` and the address of the symbol.
-/

namespace Bongos.Core

open Tools (KSYM_MAGIC KSYM_VERSION KSYM_HEADER_SIZE)

/-! ## Reading -/

variable (blob : List Byte)

def readU8 (off : ℕ) : Option Byte := blob[off]?

def readU16 (off : ℕ) : Option (BitVec 16) := do
  let b0 ← blob[off]?
  let b1 ← blob[off + 1]?
  return b0.setWidth 16 ||| b1.setWidth 16 <<< 8

def readU32 (off : ℕ) : Option (BitVec 32) := do
  let b0 ← blob[off]?
  let b1 ← blob[off + 1]?
  let b2 ← blob[off + 2]?
  let b3 ← blob[off + 3]?
  return b0.setWidth 32 ||| b1.setWidth 32 <<< 8 ||| b2.setWidth 32 <<< 16 |||
    b3.setWidth 32 <<< 24

def readU64 (off : ℕ) : Option (BitVec 64) := do
  let lo ← readU32 blob off
  let hi ← readU32 blob (off + 4)
  return lo.setWidth 64 ||| hi.setWidth 64 <<< 32

/-- The loop of `readUleb128`: the value, and the offset after it. A tenth byte that continues is
refused, so ten rounds are enough. -/
def readUleb128Loop : ℕ → ℕ → ℕ → BitVec 64 → Option (BitVec 64 × ℕ)
  | 0, _, _, _ => none
  | fuel + 1, off, shift, result => do
    let byte ← readU8 blob off
    let result := result ||| (byte &&& 0x7F).setWidth 64 <<< shift
    if byte &&& 0x80 = 0 then return (result, off + 1)
    if shift + 7 ≥ 64 then none
    else readUleb128Loop fuel (off + 1) (shift + 7) result

def readUleb128 (off : ℕ) : Option (BitVec 64 × ℕ) :=
  readUleb128Loop blob 10 off 0 0

/-! ## Names -/

/-- A byte for the name, if it fits in front of the terminating `NUL`. -/
def putByte (outCap : ℕ) (out : List Byte) (b : Byte) : List Byte :=
  if out.length + 1 < outCap then out ++ [b] else out

/-- The inner loop of `expandName`, over the bytes of a token. -/
def expandToken (outCap : ℕ) : ℕ → ℕ → List Byte → Option (List Byte)
  | 0, _, out => some out
  | n + 1, off, out => do
    let eb ← readU8 blob off
    expandToken outCap n (off + 1) (putByte outCap out eb)

/-- The loop of `expandName`, over the bytes of the encoded name. -/
def expandLoop (tokenOffset tokenCount outCap : ℕ) : ℕ → ℕ → List Byte → Option (List Byte)
  | 0, _, out => some out
  | n + 1, off, out => do
    let b ← readU8 blob off
    if b < 0x80 then
      expandLoop tokenOffset tokenCount outCap n (off + 1) (putByte outCap out b)
    else
      let tokenIdx := b.toNat - 0x80
      if tokenIdx ≥ tokenCount then none
      else
        let entryOff := tokenOffset + tokenIdx * 4
        let poolOff ← readU16 blob entryOff
        let tokLen ← readU8 blob (entryOff + 2)
        let out ← expandToken blob outCap tokLen.toNat
          (tokenOffset + tokenCount * 4 + poolOff.toNat) out
        expandLoop tokenOffset tokenCount outCap n (off + 1) out

/-- `expandName`: what is written to `out`. -/
def expandName (tokenOffset tokenCount nameOff : ℕ) (nameLen : Byte)
    (outCap : ℕ) : Option (List Byte) := do
  let out ← expandLoop blob tokenOffset tokenCount outCap nameLen.toNat nameOff []
  return if outCap > 0 then out ++ [0] else out

/-! ## Lookup -/

/-- The fields of the header that a lookup uses. -/
structure KsymHeader where
  count : BitVec 32
  blockShift : BitVec 32
  textBase : BitVec 64
  textEnd : BitVec 64
  indexOffset : BitVec 32
  indexCount : BitVec 32
  tokenOffset : BitVec 32
  tokenCount : BitVec 32
  streamOffset : BitVec 32
  streamSize : BitVec 32

/-- The first part of `ksymDecodeLookup`, which reads the header. -/
def readHeader : Option KsymHeader := do
  guard (KSYM_HEADER_SIZE ≤ blob.length)
  let magic ← readU32 blob 0
  guard (magic = KSYM_MAGIC)
  let version ← readU16 blob 4
  guard (version = KSYM_VERSION)
  let headerSize ← readU16 blob 6
  guard (KSYM_HEADER_SIZE ≤ headerSize.toNat)
  let count ← readU32 blob 8
  let blockShift ← readU32 blob 12
  let textBase ← readU64 blob 16
  let textEnd ← readU64 blob 24
  let indexOffset ← readU32 blob 32
  let indexCount ← readU32 blob 36
  let tokenOffset ← readU32 blob 40
  let tokenCount ← readU32 blob 44
  let streamOffset ← readU32 blob 48
  let streamSize ← readU32 blob 52
  return { count, blockShift, textBase, textEnd, indexOffset, indexCount, tokenOffset, tokenCount,
           streamOffset, streamSize }

/-- The binary search of the index: the rightmost block that starts at or before `addr`, if there is
one. Every round makes `hi - lo` smaller, so as many rounds as there are blocks are enough. -/
def searchBlock (indexOffset : ℕ) (addr : BitVec 64) : ℕ → ℕ → ℕ → Option ℕ → Option (Option ℕ)
  | 0, _, _, block => some block
  | fuel + 1, lo, hi, block =>
    if lo < hi then do
      let mid := lo + (hi - lo) / 2
      let firstAddr ← readU64 blob (indexOffset + mid * 16)
      if firstAddr ≤ addr then searchBlock indexOffset addr fuel (mid + 1) hi (some mid)
      else searchBlock indexOffset addr fuel lo mid block
    else some block

/-- `bestAddr`, `bestNameOff` and `bestNameLen`. -/
structure KsymMatch where
  bestAddr : BitVec 64
  bestNameOff : ℕ
  bestNameLen : Byte
  deriving DecidableEq

/-- The loop over the symbols of a block, `n` of which are left, from number `i` on. -/
def scanBlock (addr blockFirstAddr : BitVec 64) :
    ℕ → ℕ → ℕ → BitVec 64 → Option KsymMatch → Option (Option KsymMatch)
  | 0, _, _, _, best => some best
  | n + 1, i, off, curAddr, best => do
    let (delta, off) ← readUleb128 blob off
    let curAddr := if i = 0 then blockFirstAddr else curAddr + delta
    let encLen ← readU8 blob off
    let off := off + 1
    if off + encLen.toNat > blob.length then none
    else if curAddr > addr then some best
    else
      scanBlock addr blockFirstAddr n (i + 1) (off + encLen.toNat) curAddr
        (some ⟨curAddr, off, encLen⟩)

def ksymDecodeLookup (addr : BitVec 64) (nameCap : ℕ) : Option (List Byte × BitVec 64) := do
  let h ← readHeader blob
  guard (h.count ≠ 0 ∧ h.indexCount ≠ 0 ∧ h.blockShift.toNat ≤ 31 ∧ h.textBase ≤ addr ∧
    addr < h.textEnd)
  guard (h.indexOffset.toNat + h.indexCount.toNat * 16 ≤ blob.length ∧
    h.streamOffset.toNat + h.streamSize.toNat ≤ blob.length)
  let blockSize := 1#32 <<< h.blockShift.toNat
  let block ← searchBlock blob h.indexOffset.toNat addr h.indexCount.toNat 0 h.indexCount.toNat none
  let blockIdx ← block
  let blockFirstAddr ← readU64 blob (h.indexOffset.toNat + blockIdx * 16)
  let blockStreamOff ← readU32 blob (h.indexOffset.toNat + blockIdx * 16 + 8)
  let startSymIndex := BitVec.ofNat 32 blockIdx * blockSize
  let symsInBlock :=
    if h.count - startSymIndex < blockSize then h.count - startSymIndex else blockSize
  let best ← scanBlock blob addr blockFirstAddr symsInBlock.toNat 0
    (h.streamOffset.toNat + blockStreamOff.toNat) 0 none
  let best ← best
  let name ← expandName blob h.tokenOffset.toNat h.tokenCount.toNat best.bestNameOff
    best.bestNameLen nameCap
  return (name, best.bestAddr)

def ksymDecodeLookupSlid (addr slide : BitVec 64) (nameCap : ℕ) :
    Option (List Byte × BitVec 64) := do
  guard (slide ≤ addr)
  let (name, linkSymAddr) ← ksymDecodeLookup blob (addr - slide) nameCap
  return (name, linkSymAddr + slide)

end Bongos.Core
