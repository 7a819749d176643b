import Bongos.Buffer
import Bongos.Parser
import Bongos.Status

/-!
# Inflate

`inflate.c`. A function that returns -1 past the end of its input fails, and so does one that
returns `false`. The Huffman tables are functions from indices. The output buffer is the list of the
bytes written so far, and `cap` is its capacity.

A loop that runs until it meets the end of its block takes a bound on its rounds, and there is no
result when the bound is too small.
-/

namespace Bongos.Compress

def HUFF_MAX_BITS : ℕ := 15

def HUFF_MAX_SYMS : ℕ := 288

/-! ## Bits -/

/-- `BitReader` on the input `data`. -/
structure BitReader (data : List Byte) where
  bytePos : ℕ
  bitBuf : ℕ
  bitCount : ℕ
  bytePos_le : bytePos ≤ data.length
  bitCount_lt : bitCount < 8

/-- The reader at the start of the input. -/
def BitReader.start (data : List Byte) : BitReader data := ⟨0, 0, 0, Nat.zero_le _, by decide⟩

/-- A function that reads bits. -/
abbrev BitM (data : List Byte) := StateT (BitReader data) Option

variable {data : List Byte}

def brBit : BitM data Bool := fun br =>
  if br.bitCount = 0 then
    if h : br.bytePos < data.length then
      let bitBuf := data[br.bytePos].toNat
      some (bitBuf.testBit 0, ⟨br.bytePos + 1, bitBuf / 2, 7, h, by decide⟩)
    else none
  else
    some (br.bitBuf.testBit 0,
      { br with
        bitBuf := br.bitBuf / 2
        bitCount := br.bitCount - 1
        bitCount_lt := (Nat.sub_le _ _).trans_lt br.bitCount_lt })

/-- The loop of `brBits` from the bit `i` on, with the value so far and the number of bits to
come. -/
def brBitsFrom (i v : ℕ) : ℕ → BitM data ℕ
  | 0 => pure v
  | n + 1 => do
    let bit ← brBit
    brBitsFrom (i + 1) (v ||| (bit.toNat <<< i)) n

def brBits (n : ℕ) : BitM data ℕ := brBitsFrom 0 0 n

/-! ## Huffman codes -/

structure HuffTree where
  counts : ℕ → ℕ
  symbols : ℕ → ℕ

/-- The numbers of symbols of each length. -/
def huffCounts (lengths : List ℕ) : ℕ → ℕ :=
  Function.update (lengths.foldl (fun c l => Function.update c l (c l + 1)) fun _ => 0) 0 0

/-- The longest length with a symbol, or 0. -/
def huffMaxLen (counts : ℕ → ℕ) : ℕ :=
  (((List.range HUFF_MAX_BITS).map (HUFF_MAX_BITS - ·)).find? fun len => counts len ≠ 0).getD 0

/-- The room that is left after all lengths, unless the set is over-subscribed. -/
def huffLeft (counts : ℕ → ℕ) : Option ℤ :=
  (List.range HUFF_MAX_BITS).foldlM
    (fun left k =>
      let left : ℤ := left * 2 - counts (k + 1)
      if left < 0 then none else some left) 1

/-- `offs` before the symbols are entered. -/
def huffOffs (counts : ℕ → ℕ) : ℕ → ℕ
  | 0 => 0
  | 1 => 0
  | len + 2 => huffOffs counts (len + 1) + counts (len + 1)

/-- The loop that enters the symbols. -/
def huffSymbols (lengths : List ℕ) (offs : ℕ → ℕ) : (ℕ → ℕ) × (ℕ → ℕ) :=
  (List.range lengths.length).foldl
    (fun (s : (ℕ → ℕ) × (ℕ → ℕ)) i =>
      let l := lengths.getD i 0
      if l ≠ 0 then (Function.update s.1 l (s.1 l + 1), Function.update s.2 (s.1 l) i) else s)
    (offs, fun _ => 0)

def huffBuild (lengths : List ℕ) (isCodeLengths : Bool) : Option HuffTree :=
  if lengths.length > HUFF_MAX_SYMS then none
  else if ∃ l ∈ lengths, l > HUFF_MAX_BITS then none
  else
    let counts := huffCounts lengths
    let maxLen := huffMaxLen counts
    let tree : HuffTree := ⟨counts, (huffSymbols lengths (huffOffs counts)).2⟩
    if maxLen ≠ 0 then
      match huffLeft counts with
      | none => none
      | some left => if left > 0 ∧ (isCodeLengths ∨ maxLen ≠ 1) then none else some tree
    else some tree

/-- The loop of `huffDecode`, with the number of lengths to come. -/
def huffDecodeFrom (h : HuffTree) : ℕ → ℕ → ℕ → ℕ → ℕ → BitM data ℕ
  | 0, _, _, _, _ => failure
  | n + 1, len, code, first, index => do
    let bit ← brBit
    let code := code ||| bit.toNat
    let count := h.counts len
    if (code : ℤ) - first < count then return h.symbols (index + (code - first))
    else huffDecodeFrom h n (len + 1) (code * 2) ((first + count) * 2) (index + count)

def huffDecode (h : HuffTree) : BitM data ℕ := huffDecodeFrom h HUFF_MAX_BITS 1 0 0 0

/-! ## Blocks -/

def LENGTH_BASE : List ℕ :=
  [3, 4, 5, 6, 7, 8, 9, 10, 11, 13, 15, 17, 19, 23, 27, 31, 35, 43, 51, 59, 67, 83, 99,
    115, 131, 163, 195, 227, 258]

def LENGTH_EXTRA : List ℕ :=
  [0, 0, 0, 0, 0, 0, 0, 0, 1, 1, 1, 1, 2, 2, 2, 2, 3, 3, 3, 3, 4, 4, 4, 4, 5, 5, 5, 5, 0]

def DIST_BASE : List ℕ :=
  [1, 2, 3, 4, 5, 7, 9, 13, 17, 25, 33, 49, 65, 97, 129, 193, 257, 385, 513, 769, 1025, 1537, 2049,
    3073, 4097, 6145, 8193, 12289, 16385, 24577]

def DIST_EXTRA : List ℕ :=
  [0, 0, 0, 0, 1, 1, 2, 2, 3, 3, 4, 4, 5, 5, 6, 6, 7, 7, 8, 8, 9, 9, 10, 10, 11, 11, 12, 12, 13, 13]

/-- The lengths of the fixed literal and length codes. -/
def fixedLitLengths : List ℕ :=
  List.replicate 144 8 ++ List.replicate 112 9 ++ List.replicate 24 7 ++ List.replicate 8 8

/-- The lengths of the fixed distance codes. -/
def fixedDistLengths : List ℕ := List.replicate 32 5

def buildFixedTrees : Option (HuffTree × HuffTree) := do
  let lit ← huffBuild fixedLitLengths false
  let dist ← huffBuild fixedDistLengths false
  return (lit, dist)

def CLC_ORDER : List ℕ := [16, 17, 18, 0, 8, 7, 9, 6, 10, 5, 11, 4, 12, 3, 13, 2, 14, 1, 15]

/-- The loop that reads the lengths of the code-length codes, with those still to come. -/
def readClLengths : List ℕ → List ℕ → BitM data (List ℕ)
  | [], clLengths => pure clLengths
  | k :: order, clLengths => do
    let v ← brBits 3
    readClLengths order (clLengths.set k v)

/-- `rep` more lengths, unless there would be more than `total`. -/
def repeatLength (lengths : List ℕ) (total rep v : ℕ) : Option (List ℕ) :=
  if lengths.length + rep > total then none else some (lengths ++ List.replicate rep v)

/-- A round of the loop that reads the code lengths: the lengths after it. -/
def readRun (clTree : HuffTree) (total : ℕ) (lengths : List ℕ) : BitM data (List ℕ) := do
  let sym ← huffDecode clTree
  if sym < 16 then return lengths ++ [sym]
  else if sym = 16 then
    if lengths = [] then failure
    else do
      let rep ← brBits 2
      StateT.lift (repeatLength lengths total (rep + 3) (lengths.getLastD 0))
  else if sym = 17 then do
    let rep ← brBits 3
    StateT.lift (repeatLength lengths total (rep + 3) 0)
  else if sym = 18 then do
    let rep ← brBits 7
    StateT.lift (repeatLength lengths total (rep + 11) 0)
  else failure

/-- The loop that reads the code lengths. A round adds at least one length. -/
def readLengths (clTree : HuffTree) (total : ℕ) : ℕ → List ℕ → BitM data (List ℕ)
  | 0, _ => failure
  | fuel + 1, lengths =>
    if lengths.length ≥ total then pure lengths
    else do
      let lengths ← readRun clTree total lengths
      readLengths clTree total fuel lengths

def buildDynamicTrees : BitM data (HuffTree × HuffTree) := do
  let hlitField ← brBits 5
  let hdistField ← brBits 5
  let hclenField ← brBits 4
  let hlit := hlitField + 257
  let hdist := hdistField + 1
  let hclen := hclenField + 4
  if hlit > 286 ∨ hdist > 30 then failure
  else do
    let clLengths ← readClLengths (CLC_ORDER.take hclen) (List.replicate 19 0)
    let clTree ← StateT.lift (huffBuild clLengths true)
    let total := hlit + hdist
    let lengths ← readLengths clTree total (total + 1) []
    if lengths.getD 256 0 = 0 then failure
    else do
      let lit ← StateT.lift (huffBuild (lengths.take hlit) false)
      let dist ← StateT.lift (huffBuild ((lengths.drop hlit).take hdist) false)
      return (lit, dist)

/-- A symbol of a block, with its extra bits. -/
inductive Token where
  | lit (b : Byte)
  | copy (length distance : ℕ)
  deriving DecidableEq

/-- The part of a round of `inflateBlockData` that reads: a token, or the end of the block. -/
def readToken (lit dist : HuffTree) : BitM data (Option Token) := do
  let sym ← huffDecode lit
  if sym < 256 then return some (.lit (BitVec.ofNat 8 sym))
  else if sym = 256 then return none
  else
    let lsym := sym - 257
    if lsym ≥ 29 then failure
    else do
      let extra ← brBits (LENGTH_EXTRA.getD lsym 0)
      let dsym ← huffDecode dist
      if dsym ≥ 30 then failure
      else do
        let dextra ← brBits (DIST_EXTRA.getD dsym 0)
        return some (.copy (LENGTH_BASE.getD lsym 0 + extra) (DIST_BASE.getD dsym 0 + dextra))

/-- The loop that copies `length` bytes from `srcPos` on. -/
def copyMatch (out : List Byte) (srcPos length : ℕ) : List Byte :=
  (List.range length).foldl (fun out i => out ++ [out.getD (srcPos + i) 0]) out

/-- `inflateBlockData`: the status, the output and the reader after it. -/
def inflateBlockData (lit dist : HuffTree) (cap : ℕ) :
    ℕ → BitReader data → List Byte → Option (Status × List Byte × BitReader data)
  | 0, _, _ => none
  | fuel + 1, br, out =>
    match readToken lit dist br with
    | none => some (.errInvalid, out, br)
    | some (none, br) => some (.ok, out, br)
    | some (some (.lit b), br) =>
      if out.length ≥ cap then some (.errNoMemory, out, br)
      else inflateBlockData lit dist cap fuel br (out ++ [b])
    | some (some (.copy length distance), br) =>
      if distance = 0 ∨ distance > out.length then some (.errInvalid, out, br)
      else if length > cap - out.length then some (.errNoMemory, out, br)
      else inflateBlockData lit dist cap fuel br (copyMatch out (out.length - distance) length)

/-- A stored block. -/
def storedBlock (cap : ℕ) (br : BitReader data) (out : List Byte) :
    Status × List Byte × BitReader data :=
  -- The rest of the current byte is dropped.
  let br := { br with bitCount := 0, bitCount_lt := by decide }
  if h : data.length - br.bytePos < 4 then (.errInvalid, out, br)
  else
    let len := leNat ((data.drop br.bytePos).take 2)
    let nlen := leNat ((data.drop (br.bytePos + 2)).take 2)
    if 65535 - len ≠ nlen then (.errInvalid, out, br)
    else if h' : len > data.length - (br.bytePos + 4) then (.errInvalid, out, br)
    else if len > cap - out.length then (.errNoMemory, out, br)
    else
      (.ok, out ++ (data.drop (br.bytePos + 4)).take len,
        { br with bytePos := br.bytePos + 4 + len, bytePos_le := by omega })

/-- A block after its header. -/
def inflateBlock (cap : ℕ) (btype : ℕ) (br : BitReader data) (out : List Byte) :
    Option (Status × List Byte × BitReader data) :=
  if btype = 0 then some (storedBlock cap br out)
  else if btype = 1 then
    match buildFixedTrees with
    | none => some (.errInvalid, out, br)
    | some (lit, dist) => inflateBlockData lit dist cap (8 * data.length + 1) br out
  else if btype = 2 then
    match buildDynamicTrees br with
    | none => some (.errInvalid, out, br)
    | some ((lit, dist), br) => inflateBlockData lit dist cap (8 * data.length + 1) br out
  else some (.errInvalid, out, br)

/-- `bfinal` and `btype`. -/
def readHeader : BitM data (Bool × ℕ) := do
  let bfinal ← brBit
  let btype ← brBits 2
  return (bfinal, btype)

/-- The loop of `compressInflateRaw`. -/
def inflateBlocks (cap : ℕ) :
    ℕ → BitReader data → List Byte → Option (Status × List Byte × BitReader data)
  | 0, _, _ => none
  | fuel + 1, br, out =>
    match readHeader br with
    | none => some (.errInvalid, out, br)
    | some ((bfinal, btype), br) => do
      let (st, out, br) ← inflateBlock cap btype br out
      if st ≠ .ok then return (st, out, br)
      else if bfinal then return (.ok, out, br)
      else inflateBlocks cap fuel br out

/-- `compressInflateRaw`: the status, the output, and `inUsed`. -/
def compressInflateRaw (data : List Byte) (cap : ℕ) : Option (Status × List Byte × ℕ) := do
  let (st, out, br) ← inflateBlocks cap (8 * data.length + 1) (BitReader.start data) []
  return (st, out, if st = .ok then br.bytePos else 0)

end Bongos.Compress
