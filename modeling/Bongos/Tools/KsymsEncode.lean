import Bongos.PairTokens
import Bongos.Slice
import Mathlib.Algebra.Ring.Nat

/-!
# The encoder of the kernel's symbol table

`ksyms-encode.c`: the symbol names are compressed by replacing frequent pairs of bytes by tokens,
and the table is written as a header, an index of blocks of symbols, the tokens, and the stream of
symbols. A string is its bytes before the terminating `NUL`. `die` is an error of its message;
running out of memory is not modelled.
-/

namespace Bongos.Tools

def KSYM_MAGIC : BitVec 32 := 0x4D59534B

def KSYM_VERSION : BitVec 16 := 1

def KSYM_HEADER_SIZE : ℕ := 64

def KSYM_BLOCK_SHIFT : ℕ := 6

/-- `KSYM_BLOCK_SIZE`: the symbols of a block. -/
def KSYM_BLOCK_SIZE : ℕ := 2^KSYM_BLOCK_SHIFT

def KSYM_MAX_TOKENS : ℕ := 128

/-- `KSYM_MAX_TOKEN_EXPANSION`: the bytes that a token may stand for. -/
def KSYM_MAX_TOKEN_EXPANSION : ℕ := 32

def KSYM_MIN_PAIR_COUNT : ℕ := 4

structure ElfFuncSym where
  addr : BitVec 64
  name : List Byte
  deriving DecidableEq

/-! ## Writing -/

def bufU16 (v : BitVec 16) : List Byte := [v.setWidth 8, (v >>> 8).setWidth 8]

def bufU32 (v : BitVec 32) : List Byte := bufU16 (v.setWidth 16) ++ bufU16 ((v >>> 16).setWidth 16)

def bufU64 (v : BitVec 64) : List Byte := bufU32 (v.setWidth 32) ++ bufU32 ((v >>> 32).setWidth 32)

/-- The loop of `bufUleb128`. -/
def bufUleb128Loop : ℕ → BitVec 64 → List Byte
  | 0, _ => []
  | fuel + 1, v =>
    let byte := v.setWidth 8 &&& 0x7F
    let v := v >>> 7
    if v ≠ 0 then (byte ||| 0x80) :: bufUleb128Loop fuel v else [byte]

/-- `bufUleb128`. Every round shifts out seven bits, so ten rounds are enough. -/
def bufUleb128 (v : BitVec 64) : List Byte := bufUleb128Loop 10 v

/-! ## Compression -/

/-- What a byte stands for: itself, or the expansion of its token. -/
def expansion (tokens : List (List Byte)) (b : Byte) : List Byte :=
  if b < 0x80 then [b] else tokens.getD (b.toNat - 0x80) []

/-- The adjacent places of a sequence that hold the pair. -/
def pairsIn (a b : Byte) : List Byte → ℕ
  | x :: y :: rest => (if x = a ∧ y = b then 1 else 0) + pairsIn a b (y :: rest)
  | _ => 0

/-- `counts[pair]`, a 32-bit counter. -/
def pairCount (seqs : List (List Byte)) (a b : Byte) : ℕ :=
  (seqs.map (pairsIn a b)).sum % 2^32

/-- The pair that a round of `bpeCompress` has found: `bestCount`, `bestA`, `bestB`, `bestExp`. -/
structure BestPair where
  bestCount : ℕ
  bestA : Byte
  bestB : Byte
  bestExp : List Byte
  deriving DecidableEq

/-- One round of the search for the most frequent pair. -/
def bpeConsider (tokens seqs : List (List Byte)) (best : BestPair) (pair : ℕ) : BestPair :=
  let a : Byte := BitVec.ofNat 8 (pair >>> 8)
  let b : Byte := BitVec.ofNat 8 (pair &&& 0xFF)
  let count := pairCount seqs a b
  let expA := expansion tokens a
  let expB := expansion tokens b
  if count < KSYM_MIN_PAIR_COUNT then best
  else if expA.length + expB.length > KSYM_MAX_TOKEN_EXPANSION then best
  else if count > best.bestCount then ⟨count, a, b, expA ++ expB⟩
  else best

/-- The search of a round of `bpeCompress`, over all pairs of bytes. -/
def bpeBest (tokens seqs : List (List Byte)) : BestPair :=
  (List.range 65536).foldl (bpeConsider tokens seqs) ⟨0, 0, 0, []⟩

/-- The rounds of `bpeCompress`: the sequences and the tokens after them. -/
def bpeRounds : ℕ → List (List Byte) → List (List Byte) → List (List Byte) × List (List Byte)
  | 0, tokens, seqs => (tokens, seqs)
  | rounds + 1, tokens, seqs =>
    let best := bpeBest tokens seqs
    if best.bestCount = 0 then (tokens, seqs)
    else
      let newToken : Byte := BitVec.ofNat 8 (0x80 + tokens.length)
      bpeRounds rounds (tokens ++ [best.bestExp])
        (seqs.map (replacePair best.bestA best.bestB newToken))

/-- `bpeCompress`: the tokens, and the compressed sequences. Every round makes one token, so the
bounds on the rounds and on the tokens are one. -/
def bpeCompress (seqs : List (List Byte)) : List (List Byte) × List (List Byte) :=
  bpeRounds KSYM_MAX_TOKENS [] seqs

/-! ## The table -/

/-- What `ksymsEncode` has written of the symbols: `stream`, `index`, `indexCount`, `prevAddr`. -/
structure KsymStream where
  stream : List Byte
  index : List Byte
  indexCount : ℕ
  prevAddr : BitVec 64
  deriving DecidableEq

/-- One round of the loop over the symbols: symbol `i`, at `addr`, with its compressed name. -/
def encodeSym (st : KsymStream) (i : ℕ) (addr : BitVec 64) (seq : List Byte) :
    Except String KsymStream :=
  let st :=
    if i % KSYM_BLOCK_SIZE = 0 then
      { st with
        index := st.index ++
          (bufU64 addr ++ bufU32 (BitVec.ofNat 32 st.stream.length) ++ bufU32 0)
        indexCount := st.indexCount + 1 }
    else st
  let delta := if i % KSYM_BLOCK_SIZE = 0 then 0 else addr - st.prevAddr
  if seq.length > 255 then .error "a compressed symbol name exceeds 255 bytes"
  else .ok
    { st with
      stream := st.stream ++ (bufUleb128 delta ++ BitVec.ofNat 8 seq.length :: seq)
      prevAddr := addr }

/-- The loop over the symbols. -/
def encodeSyms : ℕ → List (ElfFuncSym × List Byte) → KsymStream → Except String KsymStream
  | _, [], st => .ok st
  | i, (sym, seq) :: rest, st =>
    match encodeSym st i sym.addr seq with
    | .error msg => .error msg
    | .ok st => encodeSyms (i + 1) rest st

/-- The token directory and the token pool. -/
def encodeTokens (tokens : List (List Byte)) : List Byte × List Byte :=
  tokens.foldl (fun (tokenDir, tokenPool) t =>
    (tokenDir ++ (bufU16 (BitVec.ofNat 16 tokenPool.length) ++ [BitVec.ofNat 8 t.length, 0]),
      tokenPool ++ t)) ([], [])

/-- The first loop of `ksymsEncode`, which dies on symbols out of range or out of order. -/
def checkSyms (textBase textEnd : BitVec 64) :
    Option (BitVec 64) → List ElfFuncSym → Except String Unit
  | _, [] => .ok ()
  | prev, sym :: rest =>
    if sym.addr < textBase ∨ textEnd ≤ sym.addr then
      .error "a symbol address falls outside [textBase, textEnd)"
    else if prev.any (sym.addr ≤ ·) then .error "symbols are not strictly sorted by address"
    else checkSyms textBase textEnd (some sym.addr) rest

/-- The header. -/
def encodeHeader (count : ℕ) (textBase textEnd : BitVec 64)
    (indexOffset indexCount tokenOffset tokenCount streamOffset streamSize : ℕ) : List Byte :=
  bufU32 KSYM_MAGIC ++ bufU16 KSYM_VERSION ++ bufU16 (BitVec.ofNat 16 KSYM_HEADER_SIZE) ++
    bufU32 (BitVec.ofNat 32 count) ++ bufU32 (BitVec.ofNat 32 KSYM_BLOCK_SHIFT) ++
    bufU64 textBase ++ bufU64 textEnd ++ bufU32 (BitVec.ofNat 32 indexOffset) ++
    bufU32 (BitVec.ofNat 32 indexCount) ++ bufU32 (BitVec.ofNat 32 tokenOffset) ++
    bufU32 (BitVec.ofNat 32 tokenCount) ++ bufU32 (BitVec.ofNat 32 streamOffset) ++
    bufU32 (BitVec.ofNat 32 streamSize) ++ bufU64 0

def ksymsEncodeEmpty : List Byte :=
  encodeHeader 0 0 0 KSYM_HEADER_SIZE 0 KSYM_HEADER_SIZE 0 KSYM_HEADER_SIZE 0

def ksymsEncode (syms : List ElfFuncSym) (textBase textEnd : BitVec 64) :
    Except String (List Byte) :=
  if syms.length = 0 then .ok ksymsEncodeEmpty
  else
    match checkSyms textBase textEnd none syms with
    | .error msg => .error msg
    | .ok () =>
      let (tokens, seqs) := bpeCompress (syms.map ElfFuncSym.name)
      match encodeSyms 0 (syms.zip seqs) ⟨[], [], 0, 0⟩ with
      | .error msg => .error msg
      | .ok st =>
        let (tokenDir, tokenPool) := encodeTokens tokens
        let indexOffset := KSYM_HEADER_SIZE
        let tokenOffset := indexOffset + st.index.length
        let streamOffset := tokenOffset + tokenDir.length + tokenPool.length
        .ok (encodeHeader syms.length textBase textEnd indexOffset st.indexCount tokenOffset
          tokens.length streamOffset st.stream.length ++
            (st.index ++ (tokenDir ++ (tokenPool ++ st.stream))))

end Bongos.Tools
