import Bongos.Compress.Inflate

/-!
# Deflate and the zlib format

`deflate.c` and `zlib.c`. The output buffer is the list of the bytes written so far, and `cap` is
its capacity. A loop over the input takes a bound on its rounds; there is no result when it is too
small, or when a table is read out of its range.
-/

namespace Bongos.Compress

/-! ## Bits -/

/-- `BitWriter`; `bytePos` is the length of `out`. -/
structure BitWriter where
  out : List Byte
  bitBuf : ℕ
  bitCount : ℕ
  overflow : Bool
  deriving DecidableEq

variable (cap : ℕ)

variable (bw : BitWriter)

def bwPutBit (bit : ℕ) : BitWriter :=
  let bitBuf := bw.bitBuf ||| ((bit &&& 1) <<< bw.bitCount)
  let bitCount := bw.bitCount + 1
  if bitCount = 8 then
    if bw.out.length ≥ cap then ⟨bw.out, 0, 0, true⟩
    else ⟨bw.out ++ [BitVec.ofNat 8 bitBuf], 0, 0, bw.overflow⟩
  else ⟨bw.out, bitBuf, bitCount, bw.overflow⟩

def bwBits (value n : ℕ) : BitWriter :=
  (List.range n).foldl (fun bw i => bwPutBit cap bw ((value >>> i) &&& 1)) bw

def bwHuffman (code len : ℕ) : BitWriter :=
  (List.range len).reverse.foldl (fun bw i => bwPutBit cap bw ((code >>> i) &&& 1)) bw

/-- The loop of `bwFlushByte`, with the number of rounds that are left. -/
def bwFlushByteFrom : ℕ → BitWriter → Option BitWriter
  | 0, _ => none
  | n + 1, bw => if bw.bitCount ≠ 0 then bwFlushByteFrom n (bwPutBit cap bw 0) else some bw

/-- `bwFlushByte`. A byte has eight bits. -/
def bwFlushByte : Option BitWriter := bwFlushByteFrom cap 8 bw

/-! ## Codes -/

/-- `fixedLitCode`: the code and its length. -/
def fixedLitCode (sym : ℕ) : ℕ × ℕ :=
  if sym ≤ 143 then (0x30 + sym, 8)
  else if sym ≤ 255 then (0x190 + (sym - 144), 9)
  else if sym ≤ 279 then (sym - 256, 7)
  else (0xC0 + (sym - 280), 8)

/-- `fixedDistCode`: the code and its length. -/
def fixedDistCode (sym : ℕ) : ℕ × ℕ := (sym, 5)

/-- The last entry of a table that is at most `v`. -/
def lastAtMost (table : List ℕ) (v : ℕ) : Option ℕ :=
  (List.range table.length).reverse.find? fun i => v ≥ table.getD i 0

def emitLength (length : ℕ) : Option BitWriter := do
  let i ← lastAtMost LENGTH_BASE length
  let (code, len) := fixedLitCode (257 + i)
  return bwBits cap (bwHuffman cap bw code len) (length - LENGTH_BASE.getD i 0)
    (LENGTH_EXTRA.getD i 0)

def emitDistance (distance : ℕ) : Option BitWriter := do
  let i ← lastAtMost DIST_BASE distance
  let (code, len) := fixedDistCode i
  return bwBits cap (bwHuffman cap bw code len) (distance - DIST_BASE.getD i 0)
    (DIST_EXTRA.getD i 0)

/-! ## Matches -/

variable (data : List Byte)

/-- The loop of `matchLength`, with the number of bytes that are left. -/
def matchLengthFrom (pos dist : ℕ) : ℕ → ℕ → ℕ
  | 0, len => len
  | n + 1, len =>
    if data.getD (pos + len) 0 = data.getD (pos + len - dist) 0 then
      matchLengthFrom pos dist n (len + 1)
    else len

def matchLength (pos dist maxLen : ℕ) : ℕ :=
  matchLengthFrom data pos dist maxLen 0

/-- `bestLen` and `bestDist` after one of the two distances has been tried. -/
def tryDistance (pos remaining dist : ℕ) (best : ℕ × ℕ) : ℕ × ℕ :=
  let len := matchLength data pos dist remaining
  if len ≥ 3 ∧ len > best.1 then (len, dist) else best

/-- `bestLen` and `bestDist`. -/
def bestMatch (rowStride pos : ℕ) : ℕ × ℕ :=
  let remaining := if data.length - pos > 258 then 258 else data.length - pos
  if remaining ≥ 3 then
    let best := if pos ≥ 3 then tryDistance data pos remaining 3 (0, 0) else (0, 0)
    if rowStride ≠ 0 ∧ rowStride ≤ 32768 ∧ pos ≥ rowStride then
      tryDistance data pos remaining rowStride best
    else best
  else (0, 0)

/-! ## The block -/

/-- What a round emits, and the position after it. -/
def emitRound (rowStride : ℕ) (bw : BitWriter) (pos : ℕ) : Option (BitWriter × ℕ) :=
  let (bestLen, bestDist) := bestMatch data rowStride pos
  if bestLen ≥ 3 then do
    let bw ← emitLength cap bw bestLen
    let bw ← emitDistance cap bw bestDist
    return (bw, pos + bestLen)
  else
    let (code, len) := fixedLitCode (data.getD pos 0).toNat
    some (bwHuffman cap bw code len, pos + 1)

/-- The loop of `compressDeflateFixed`. -/
def deflateLoop (rowStride : ℕ) : ℕ → BitWriter → ℕ → Option (Status × BitWriter)
  | 0, _, _ => none
  | fuel + 1, bw, pos =>
    if pos < data.length then do
      let (bw, pos) ← emitRound cap data rowStride bw pos
      if bw.overflow then return (.errNoMemory, bw)
      else deflateLoop rowStride fuel bw pos
    else some (.ok, bw)

/-- `compressDeflateFixed`: the status and the bytes written. -/
def compressDeflateFixed (rowStride : ℕ) : Option (Status × List Byte) := do
  let bw : BitWriter := ⟨[], 0, 0, false⟩
  -- BFINAL, and BTYPE 01
  let bw := bwBits cap (bwBits cap bw 1 1) 1 2
  let (st, bw) ← deflateLoop cap data rowStride (data.length + 1) bw 0
  if st ≠ .ok then return (st, bw.out)
  else
    let (code, len) := fixedLitCode 256
    let bw ← bwFlushByte cap (bwHuffman cap bw code len)
    return (if bw.overflow then .errNoMemory else .ok, bw.out)

/-! ## zlib -/

def ADLER_MOD : ℕ := 65521

/-- A round of the loop of `compressAdler32`. -/
def adlerRound (s : ℕ × ℕ) (x : Byte) : ℕ × ℕ :=
  let a := (s.1 + x.toNat) % ADLER_MOD
  (a, (s.2 + a) % ADLER_MOD)

def compressAdler32 (adler : ℕ) (p : List Byte) : ℕ :=
  let (a, b) := p.foldl adlerRound (adler &&& 0xFFFF, adler >>> 16)
  (b <<< 16) ||| a

/-- Four bytes, the highest first, as a number. -/
def beWord (off : ℕ) : ℕ :=
  let byte (i : ℕ) := (data.getD (off + i) 0).toNat
  (byte 0 <<< 24) ||| (byte 1 <<< 16) ||| (byte 2 <<< 8) ||| byte 3

/-- `compressZlibInflate`: the status, the output, and `inUsed`. -/
def compressZlibInflate (cap : ℕ) : Option (Status × List Byte × ℕ) :=
  if data.length < 6 then some (.errInvalid, [], 0)
  else
    let cmf := (data.getD 0 0).toNat
    let flg := (data.getD 1 0).toNat
    if cmf &&& 0x0F ≠ 8 then some (.errInvalid, [], 0)
    else if cmf >>> 4 > 7 then some (.errInvalid, [], 0)
    else if (cmf * 256 + flg) % 31 ≠ 0 then some (.errInvalid, [], 0)
    else if flg &&& 0x20 ≠ 0 then some (.errInvalid, [], 0)
    else do
      let (st, out, rawUsed) ← compressInflateRaw (data.drop 2) cap
      if st ≠ .ok then return (st, out, 0)
      else
        let trailer := 2 + rawUsed
        if data.length - trailer < 4 then return (.errInvalid, out, 0)
        else if compressAdler32 1 out ≠ beWord data trailer then return (.errInvalid, out, 0)
        else return (.ok, out, trailer + 4)

/-- `compressZlibDeflate`: the status and the bytes written. -/
def compressZlibDeflate (rowStride : ℕ) : Option (Status × List Byte) :=
  if cap < 6 then some (.errNoMemory, [])
  else do
    let (st, payload) ← compressDeflateFixed (cap - 6) data rowStride
    if st ≠ .ok then return (st, 0x78#8 :: 0x01#8 :: payload)
    else
      let adler := compressAdler32 1 data
      return (.ok, 0x78#8 :: 0x01#8 :: (payload ++ [BitVec.ofNat 8 (adler >>> 24),
        BitVec.ofNat 8 (adler >>> 16), BitVec.ofNat 8 (adler >>> 8), BitVec.ofNat 8 adler]))

end Bongos.Compress
