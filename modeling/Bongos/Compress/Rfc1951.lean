import Bongos.CanonicalCode
import Bongos.Compress.Inflate

/-!
# The DEFLATE format

What RFC 1951 says a stream of blocks means, and which strings of bits stand for it. A block is
stored, or is a list of tokens with the fixed codes or with codes of its own. The bytes that it
stands for are those of the LZ77 expansion.

The length 258 has a code of its own. The string of the code 284 with all extra bits set would have
the same length, but is not in the format; `alt` says whether it is allowed here all the same.
-/

namespace Bongos.Compress

/-! ## Meaning -/

/-- `n` bytes that repeat what stands `distance` bytes before the end. -/
def lzCopy (distance : ℕ) : ℕ → List Byte → List Byte
  | 0, out => out
  | n + 1, out => lzCopy distance n (out ++ [out.getD (out.length - distance) 0])

/-- The output after a token, unless it reaches back before the start. -/
def Token.expand (out : List Byte) : Token → Option (List Byte)
  | .lit b => some (out ++ [b])
  | .copy length distance =>
    if 0 < distance ∧ distance ≤ out.length then some (lzCopy distance length out) else none

/-- A block. The lengths of a dynamic block's codes are part of it. -/
inductive Block where
  | stored (bytes : List Byte)
  | fixed (tokens : List Token)
  | dynamic (lit dist : List ℕ) (tokens : List Token)

/-- The output after a block. -/
def Block.expand (out : List Byte) : Block → Option (List Byte)
  | .stored bytes => some (out ++ bytes)
  | .fixed tokens => tokens.foldlM Token.expand out
  | .dynamic _ _ tokens => tokens.foldlM Token.expand out

/-! ## Tokens as bits -/

/-- The number of extra bits of the length code `257 + sym`. -/
def lengthExtra (sym : ℕ) : ℕ := if sym < 8 ∨ sym = 28 then 0 else (sym - 4) / 4

/-- The shortest length of the length code `257 + sym`. -/
def lengthBase (sym : ℕ) : ℕ :=
  if sym < 8 then sym + 3 else if sym = 28 then 258 else (4 + sym % 4) * 2^lengthExtra sym + 3

/-- The number of extra bits of the distance code `sym`. -/
def distExtra (sym : ℕ) : ℕ := if sym < 4 then 0 else (sym - 2) / 2

/-- The shortest distance of the distance code `sym`. -/
def distBase (sym : ℕ) : ℕ := if sym < 4 then sym + 1 else (2 + sym % 2) * 2^distExtra sym + 1

/-- The tables of the code are those of the format. -/
theorem length_tables : ∀ sym < 29,
    LENGTH_EXTRA.getD sym 0 = lengthExtra sym ∧ LENGTH_BASE.getD sym 0 = lengthBase sym := by decide

theorem dist_tables : ∀ sym < 30,
    DIST_EXTRA.getD sym 0 = distExtra sym ∧ DIST_BASE.getD sym 0 = distBase sym := by decide

/-- The string is the codeword of the symbol. -/
def CodeBits (lens : List ℕ) (sym : ℕ) (w : List Bool) : Prop :=
  HasCode lens sym ∧ w = codeword lens sym

/-- The length code `257 + sym` with the extra bits `extra` stands for the length. -/
def LengthCode (alt : Bool) (length sym extra : ℕ) : Prop :=
  sym < 29 ∧ extra < 2^lengthExtra sym ∧ lengthBase sym + extra = length ∧
    (alt = false → ¬ (sym = 27 ∧ extra = 31))

/-- The distance code `sym` with the extra bits `extra` stands for the distance. -/
def DistCode (distance sym extra : ℕ) : Prop :=
  sym < 30 ∧ extra < 2^distExtra sym ∧ distBase sym + extra = distance

/-- The strings of a token. -/
def TokenBits (alt : Bool) (lit dist : List ℕ) : Token → List Bool → Prop
  | .lit b, w => CodeBits lit b.toNat w
  | .copy length distance, w => ∃ ls le ds de w₁ w₂, LengthCode alt length ls le ∧
      DistCode distance ds de ∧ CodeBits lit (257 + ls) w₁ ∧ CodeBits dist ds w₂ ∧
      w = w₁ ++ (lsbBits (lengthExtra ls) le ++ (w₂ ++ lsbBits (distExtra ds) de))

/-- The strings of the tokens of a block, with the end of the block. -/
def TokensBits (alt : Bool) (lit dist : List ℕ) : List Token → List Bool → Prop
  | [], w => CodeBits lit 256 w
  | t :: ts, w => ∃ w₁ w₂, TokenBits alt lit dist t w₁ ∧ TokensBits alt lit dist ts w₂ ∧
    w = w₁ ++ w₂

/-! ## Code lengths as bits -/

/-- A symbol of the code-length alphabet, with its extra bits. -/
inductive LengthRun where
  /-- One length. -/
  | one (l : ℕ)
  /-- The length before it, 3 to 6 times. -/
  | again (extra : ℕ)
  /-- The length 0, 3 to 10 times. -/
  | zeros (extra : ℕ)
  /-- The length 0, 11 to 138 times. -/
  | manyZeros (extra : ℕ)

/-- The lengths after a run. There is nothing to repeat at the start. -/
def LengthRun.expand (lens : List ℕ) : LengthRun → Option (List ℕ)
  | .one l => some (lens ++ [l])
  | .again extra =>
    if lens = [] then none else some (lens ++ List.replicate (extra + 3) (lens.getLastD 0))
  | .zeros extra => some (lens ++ List.replicate (extra + 3) 0)
  | .manyZeros extra => some (lens ++ List.replicate (extra + 11) 0)

/-- The strings of a run. -/
def RunBits (cl : List ℕ) : LengthRun → List Bool → Prop
  | .one l, w => l < 16 ∧ CodeBits cl l w
  | .again extra, w => ∃ w₁, extra < 2^2 ∧ CodeBits cl 16 w₁ ∧ w = w₁ ++ lsbBits 2 extra
  | .zeros extra, w => ∃ w₁, extra < 2^3 ∧ CodeBits cl 17 w₁ ∧ w = w₁ ++ lsbBits 3 extra
  | .manyZeros extra, w => ∃ w₁, extra < 2^7 ∧ CodeBits cl 18 w₁ ∧ w = w₁ ++ lsbBits 7 extra

/-- The strings of a list of runs. -/
def RunsBits (cl : List ℕ) : List LengthRun → List Bool → Prop
  | [], w => w = []
  | r :: rs, w => ∃ w₁ w₂, RunBits cl r w₁ ∧ RunsBits cl rs w₂ ∧ w = w₁ ++ w₂

/-- A code of one symbol has a codeword of one bit. -/
def Single (lens : List ℕ) : Prop := lens.count 1 = 1 ∧ ∀ l ∈ lens, l = 0 ∨ l = 1

/-- The codes that a dynamic block may have. -/
structure DynamicCodes (lit dist : List ℕ) : Prop where
  lit_le : lit.length ≤ 286
  dist_pos : 0 < dist.length
  dist_le : dist.length ≤ 30
  short : ∀ l ∈ lit ++ dist, l ≤ 15
  /-- There is a code for the end of the block. -/
  hasEnd : HasCode lit 256
  lit_code : Complete lit 15 ∨ Single lit
  dist_code : Complete dist 15 ∨ Single dist ∨ ∀ l ∈ dist, l = 0

/-- The strings of the codes of a dynamic block: the numbers of lengths, the code of the code-length
alphabet, of which the lengths stand in the order `CLC_ORDER`, and any runs that give the
lengths. -/
def CodesBits (lit dist : List ℕ) (w : List Bool) : Prop :=
  ∃ (cl : List ℕ) (hclen : ℕ) (runs : List LengthRun) (w₁ : List Bool),
    cl.length = 19 ∧ (∀ l ∈ cl, l < 8) ∧ Complete cl 15 ∧ 4 ≤ hclen ∧ hclen ≤ 19 ∧
    (∀ k ∈ CLC_ORDER.drop hclen, cl.getD k 0 = 0) ∧
    runs.foldlM LengthRun.expand [] = some (lit ++ dist) ∧ RunsBits cl runs w₁ ∧
    w = lsbBits 5 (lit.length - 257) ++ (lsbBits 5 (dist.length - 1) ++ (lsbBits 4 (hclen - 4) ++
      ((CLC_ORDER.take hclen).flatMap (fun k => lsbBits 3 (cl.getD k 0)) ++ w₁)))

/-! ## Blocks as bits -/

/-- The strings of a block after its header, from the bit `pos` on. A stored block starts at the
next whole byte, and the bits before that are ignored. -/
def BodyBits (alt : Bool) (pos : ℕ) : Block → List Bool → Prop
  | .stored bytes, w => ∃ pad : List Bool, pad.length < 8 ∧ (pos + pad.length) % 8 = 0 ∧
      bytes.length < 65536 ∧
      w = pad ++ (lsbBits 16 bytes.length ++ (lsbBits 16 (65535 - bytes.length) ++ byteBits bytes))
  | .fixed tokens, w => TokensBits alt fixedLitLengths fixedDistLengths tokens w
  | .dynamic lit dist tokens, w => ∃ w₁ w₂, DynamicCodes lit dist ∧ CodesBits lit dist w₁ ∧
      TokensBits alt lit dist tokens w₂ ∧ w = w₁ ++ w₂

/-- `BTYPE`. -/
def Block.type : Block → ℕ
  | .stored _ => 0
  | .fixed _ => 1
  | .dynamic _ _ _ => 2

/-- The strings of a list of blocks from the bit `pos` on. Only the last block is marked as
final. -/
def StreamBits (alt : Bool) : ℕ → List Block → List Bool → Prop
  | _, [], _ => False
  | pos, [b], w => ∃ w₁, BodyBits alt (pos + 3) b w₁ ∧ w = true :: (lsbBits 2 b.type ++ w₁)
  | pos, b :: b' :: bs, w => ∃ w₁ w₂, BodyBits alt (pos + 3) b w₁ ∧
      StreamBits alt (pos + 3 + w₁.length) (b' :: bs) w₂ ∧
      w = false :: (lsbBits 2 b.type ++ (w₁ ++ w₂))

/-- The bytes are an expansion of blocks of which a string is at the start of the input, and of
which the string takes up `used` bytes. -/
def Expands (alt : Bool) (input : List Byte) (out : List Byte) (used : ℕ) : Prop :=
  ∃ (blocks : List Block) (w rest : List Bool), StreamBits alt 0 blocks w ∧
    blocks.foldlM Block.expand [] = some out ∧ byteBits input = w ++ rest ∧
      used = (w.length + 7) / 8

end Bongos.Compress
