import Bongos.Compress.Deflate
import Bongos.Compress.InflateCorrect

/-!
# The compressor's output expands to its input

The writer's state stands for the string of bits written so far (`Wrote`). The compressor writes one
final fixed block of which the tokens expand to the input, and stops early only if the string does
not fit. So inflate, which decodes the format, gives the input back.
-/

namespace Bongos.Compress

open List

variable {cap : ℕ} {bw bw' : BitWriter} {B w : List Bool} {data : List Byte}
  {pos dist len rowStride : ℕ}

/-! ## Writing bits -/

/-- The bits have been written; those of whole bytes are in the output as far as it has room. -/
structure Wrote (cap : ℕ) (bw : BitWriter) (B : List Bool) : Prop where
  bytes : ∃ bytes : List Byte, B = byteBits bytes ++ lsbBits bw.bitCount bw.bitBuf ∧
    bw.out = bytes.take cap ∧ bw.overflow = decide (cap < bytes.length)
  bitBuf_lt : bw.bitBuf < 2^bw.bitCount
  bitCount_lt : bw.bitCount < 8

theorem wrote_start (cap : ℕ) : Wrote cap ⟨[], 0, 0, false⟩ [] :=
  ⟨⟨[], rfl, by simp, by simp⟩, by decide, by decide⟩

variable {n v : ℕ}

/-- A bit above the others of a number. -/
theorem lsbBits_succ_add (b : Bool) (hv : v < 2^n) :
    lsbBits (n + 1) (v + b.toNat * 2^n) = lsbBits n v ++ [b] := by
  have hlow : (v + b.toNat * 2^n) % 2^n = v := by
    rw [Nat.add_mul_mod_self_right, Nat.mod_eq_of_lt hv]
  have hhigh : (v + b.toNat * 2^n) / 2^n = b.toNat := by
    rw [Nat.add_mul_div_right _ _ (Nat.two_pow_pos n), Nat.div_eq_of_lt hv, Nat.zero_add]
  rw [lsbBits_append, ← lsbBits_mod n, hlow, hhigh]
  cases b <;> rfl

theorem and_one_eq_toNat (v : ℕ) : v &&& 1 = (v.testBit 0).toNat := by
  rw [testBit_zero_toNat, Nat.and_one_is_mod]

theorem Wrote.putBit (h : Wrote cap bw B) (bit : ℕ) :
    Wrote cap (bwPutBit cap bw bit) (B ++ [bit.testBit 0]) := by
  obtain ⟨⟨bytes, rfl, hout, hover⟩, hbuf, hcount⟩ := h
  have hbits := lsbBits_succ_add (bit.testBit 0) hbuf
  have hlt : bw.bitBuf + (bit.testBit 0).toNat * 2^bw.bitCount < 2^(bw.bitCount + 1) := by
    cases bit.testBit 0 <;> simp <;> omega
  unfold bwPutBit
  rw [and_one_eq_toNat, or_shiftLeft _ hbuf]
  generalize bw.bitBuf + (bit.testBit 0).toNat * 2^bw.bitCount = buf at hbits hlt
  by_cases hfull : bw.bitCount + 1 = 8
  · -- The byte is full: it is written, or it is the first that does not fit.
    rw [if_pos hfull]
    rw [hfull] at hbits hlt
    have hbyte : byteBits [BitVec.ofNat 8 buf] = lsbBits 8 buf := by
      rw [byteBits_cons, BitVec.toNat_ofNat, Nat.mod_eq_of_lt hlt]
      exact append_nil _
    have hlen : bw.out.length = min cap bytes.length := by rw [hout, length_take]
    have hsplit : byteBits bytes ++ lsbBits bw.bitCount bw.bitBuf ++ [bit.testBit 0] =
        byteBits (bytes ++ [BitVec.ofNat 8 buf]) ++ lsbBits 0 0 := by
      rw [byteBits_append, hbyte, hbits, append_assoc]
      exact (append_nil _).symm
    rw [hsplit]
    by_cases hroom : bw.out.length ≥ cap
    · rw [if_pos hroom]
      refine ⟨⟨_, rfl, ?_, ?_⟩, Nat.one_pos, Nat.succ_pos 7⟩
      · rw [hout, take_append_of_le_length (by omega)]
      · rw [length_append, length_singleton, eq_comm, decide_eq_true_iff]
        omega
    · rw [if_neg hroom]
      refine ⟨⟨_, rfl, ?_, ?_⟩, Nat.one_pos, Nat.succ_pos 7⟩
      · rw [hout, take_of_length_le (by omega), take_of_length_le]
        rw [length_append, length_singleton]
        omega
      · rw [hover, length_append, length_singleton, decide_eq_decide]
        omega
  · rw [if_neg hfull]
    refine ⟨⟨bytes, ?_, hout, hover⟩, hlt, by show bw.bitCount + 1 < 8; omega⟩
    rw [append_assoc, hbits]

theorem testBit_shiftRight_and (v i : ℕ) : ((v >>> i) &&& 1).testBit 0 = v.testBit i := by
  rw [Nat.testBit_and, Nat.testBit_shiftRight, Nat.add_zero]
  exact Bool.and_true _

theorem lsbBits_succ_last (n v : ℕ) : lsbBits (n + 1) v = lsbBits n v ++ [v.testBit n] := by
  rw [lsbBits_append, lsbBits, Nat.testBit_div_two_pow, Nat.zero_add]
  rfl

section

variable (h : Wrote cap bw B)

include h

theorem Wrote.bits (v n : ℕ) : Wrote cap (bwBits cap bw v n) (B ++ lsbBits n v) := by
  induction n with
  | zero => rwa [lsbBits, append_nil]
  | succ n ih =>
    have hbit := ih.putBit ((v >>> n) &&& 1)
    rw [testBit_shiftRight_and, append_assoc, ← lsbBits_succ_last] at hbit
    rw [bwBits, range_succ, foldl_append]
    exact hbit

theorem Wrote.huffman (code len : ℕ) :
    Wrote cap (bwHuffman cap bw code len) (B ++ msbBits len code) := by
  induction len generalizing bw B with
  | zero => rwa [msbBits, append_nil]
  | succ len ih =>
    have hbit := h.putBit ((code >>> len) &&& 1)
    rw [testBit_shiftRight_and] at hbit
    have hrest := ih hbit
    rw [append_assoc] at hrest
    rw [bwHuffman, range_succ, reverse_append]
    exact hrest

/-- The last byte is filled up with zeros. -/
theorem Wrote.flushFrom (hn : (8 - bw.bitCount) % 8 < n) :
    ∃ bw', bwFlushByteFrom cap n bw = some bw' ∧ bw'.bitCount = 0 ∧
      Wrote cap bw' (B ++ List.replicate ((8 - bw.bitCount) % 8) false) := by
  induction n generalizing bw B with
  | zero => omega
  | succ n ih =>
    have hcount := h.bitCount_lt
    rw [bwFlushByteFrom]
    by_cases hzero : bw.bitCount = 0
    · rw [if_neg (not_not.2 hzero), hzero]
      exact ⟨bw, rfl, hzero, by simpa using h⟩
    · rw [if_pos hzero]
      have hbit : Wrote cap (bwPutBit cap bw 0) (B ++ [false]) := h.putBit 0
      have hnext : (bwPutBit cap bw 0).bitCount = (bw.bitCount + 1) % 8 := by
        unfold bwPutBit
        dsimp only
        split_ifs <;> dsimp only <;> omega
      obtain ⟨bw', hrun, hdone, hwrote⟩ := ih hbit (by omega)
      refine ⟨bw', hrun, hdone, ?_⟩
      rw [show (8 - bw.bitCount) % 8 = (8 - (bwPutBit cap bw 0).bitCount) % 8 + 1 by omega,
        replicate_succ, append_cons]
      exact hwrote

theorem Wrote.length : B.length % 8 = bw.bitCount := by
  obtain ⟨⟨bytes, rfl, -⟩, -, hcount⟩ := h
  rw [length_append, length_byteBits, length_lsbBits]
  omega

/-- The writer has overflowed if the whole bytes do not fit. -/
theorem Wrote.overflow_iff : bw.overflow = true ↔ cap < B.length / 8 := by
  obtain ⟨⟨bytes, rfl, -, hover⟩, -, hcount⟩ := h
  rw [hover, decide_eq_true_iff, length_append, length_byteBits, length_lsbBits]
  omega

end

/-! ## Codes -/

/-- The closed forms are the canonical codes of the fixed lengths. -/
theorem codeBits_fixedLitCode : ∀ sym < 288, CodeBits fixedLitLengths sym
    (msbBits (fixedLitCode sym).2 (fixedLitCode sym).1) := by
  unfold CodeBits
  decide +kernel

theorem codeBits_fixedDistCode : ∀ sym < 30, CodeBits fixedDistLengths sym
    (msbBits (fixedDistCode sym).2 (fixedDistCode sym).1) := by
  unfold CodeBits
  decide +kernel

/-- The entry is at most `v`, and the one after it is not. -/
theorem lastAtMost_spec {table : List ℕ} (hpos : 0 < table.length) (hfirst : table.getD 0 0 ≤ v) :
    ∃ i < table.length, lastAtMost table v = some i ∧ table.getD i 0 ≤ v ∧
      (i + 1 < table.length → v < table.getD (i + 1) 0) := by
  unfold lastAtMost
  cases hfind : (List.range table.length).reverse.find? fun i => v ≥ table.getD i 0 with
  | none =>
    rw [find?_eq_none] at hfind
    have hno := hfind 0 (by simpa using hpos)
    exact absurd hfirst (by simpa using hno)
  | some i =>
    obtain ⟨hi, k, hk, hki, hbefore⟩ := find?_eq_some_iff_getElem.1 hfind
    rw [length_reverse, length_range] at hk
    rw [getElem_reverse, getElem_range, length_range] at hki
    refine ⟨i, by omega, rfl, by simpa using hi, fun hnext => ?_⟩
    have hno := hbefore (k - 1) (by omega)
    rw [getElem_reverse, getElem_range, length_range] at hno
    rw [show table.length - 1 - (k - 1) = i + 1 by omega] at hno
    simpa using hno

/-- The entry that `emitLength` finds is the length's code. -/
theorem lengthCode_lastAtMost (hlen : 3 ≤ len) (hlen' : len ≤ 258) :
    ∃ i, lastAtMost LENGTH_BASE len = some i ∧
      LengthCode false len i (len - LENGTH_BASE.getD i 0) := by
  obtain ⟨i, hi, hlast, hbase, hnext⟩ := lastAtMost_spec (by decide : 0 < LENGTH_BASE.length) hlen
  have hi' : i < 29 := hi
  have hgap : ∀ i < 29,
      (i + 1 < 29 → LENGTH_BASE.getD (i + 1) 0 ≤ LENGTH_BASE.getD i 0 + 2^lengthExtra i) ∧
      (i = 28 → LENGTH_BASE.getD i 0 = 258 ∧ lengthExtra i = 0) ∧
        (i = 27 → LENGTH_BASE.getD (i + 1) 0 = LENGTH_BASE.getD i 0 + 31) := by decide
  obtain ⟨hstep, hlast', hstrict⟩ := hgap i hi'
  refine ⟨i, hlast, hi', ?_, ?_, fun _ => ?_⟩
  · rcases Nat.lt_or_ge (i + 1) 29 with hlt | hge
    · have := hnext hlt
      omega
    · obtain ⟨hbase', hextra⟩ := hlast' (by omega)
      rw [hbase', hextra, pow_zero]
      omega
  · rw [← (length_tables i hi').2]
    omega
  · rintro ⟨h27, hall⟩
    have := hnext (by rw [h27]; decide)
    omega

theorem distCode_lastAtMost (hdist : 1 ≤ dist) (hdist' : dist ≤ 32768) :
    ∃ i, lastAtMost DIST_BASE dist = some i ∧ DistCode dist i (dist - DIST_BASE.getD i 0) := by
  obtain ⟨i, hi, hlast, hbase, hnext⟩ := lastAtMost_spec (by decide : 0 < DIST_BASE.length) hdist
  have hi' : i < 30 := hi
  have hgap : ∀ i < 30,
      (i + 1 < 30 → DIST_BASE.getD (i + 1) 0 = DIST_BASE.getD i 0 + 2^distExtra i) ∧
        (i = 29 → DIST_BASE.getD i 0 + 2^distExtra i = 32769) := by decide
  obtain ⟨hstep, hlast'⟩ := hgap i hi'
  refine ⟨i, hlast, hi', ?_, ?_⟩
  · rcases Nat.lt_or_ge (i + 1) 30 with hlt | hge
    · have := hnext hlt
      omega
    · omega
  · rw [← (dist_tables i hi').2]
    omega

/-- `emitLength` and `emitDistance` write a token of the format, of at most nine bits a byte. -/
theorem exists_emitCopy (hlen : 3 ≤ len) (hlen' : len ≤ 258) (hdist : 1 ≤ dist)
    (hdist' : dist ≤ 32768) :
    ∃ w, TokenBits false fixedLitLengths fixedDistLengths (.copy len dist) w ∧
      w.length ≤ 9 * len ∧ ∀ {cap bw B}, Wrote cap bw B →
        ∃ bw1 bw2, emitLength cap bw len = some bw1 ∧ emitDistance cap bw1 dist = some bw2 ∧
          Wrote cap bw2 (B ++ w) := by
  obtain ⟨i, hi, hlength⟩ := lengthCode_lastAtMost hlen hlen'
  obtain ⟨j, hj, hdistance⟩ := distCode_lastAtMost hdist hdist'
  obtain ⟨hle, hlb⟩ := length_tables i hlength.1
  obtain ⟨hde, hdb⟩ := dist_tables j hdistance.1
  have hi29 := hlength.1
  refine ⟨_, ⟨i, _, j, _, _, _, hlength, hdistance, codeBits_fixedLitCode (257 + i) (by omega),
    codeBits_fixedDistCode j hdistance.1, rfl⟩, ?_, fun {cap bw B} hw => ?_⟩
  · -- Long lengths have room for extra bits; the short ones have none.
    have hshort : ∀ i < 29, (fixedLitCode (257 + i)).2 + lengthExtra i ≤ 13 ∧
        ((fixedLitCode (257 + i)).2 + lengthExtra i ≤ 8 ∨ 11 ≤ lengthBase i) := by decide
    have hfar : ∀ j < 30, distExtra j ≤ 13 := by decide
    obtain ⟨hbits, hsmall⟩ := hshort i hi29
    have hfar' := hfar j hdistance.1
    have hbase := hlength.2.2.1
    simp only [length_append, length_msbBits, length_lsbBits]
    have hfive : (fixedDistCode j).2 = 5 := rfl
    omega
  · have hfirst := (hw.huffman (fixedLitCode (257 + i)).1 (fixedLitCode (257 + i)).2).bits
      (len - LENGTH_BASE.getD i 0) (LENGTH_EXTRA.getD i 0)
    have hboth := (hfirst.huffman (fixedDistCode j).1 (fixedDistCode j).2).bits
      (dist - DIST_BASE.getD j 0) (DIST_EXTRA.getD j 0)
    simp only [append_assoc] at hboth
    rw [← hle, ← hde]
    exact ⟨_, _, by rw [emitLength, hi]; rfl, by rw [emitDistance, hj]; rfl, hboth⟩

/-! ## Matches -/

theorem matchLengthFrom_spec (data : List Byte) (pos dist n len : ℕ) :
    matchLengthFrom data pos dist n len ≤ len + n ∧
      ∀ k, len ≤ k → k < matchLengthFrom data pos dist n len →
        data.getD (pos + k) 0 = data.getD (pos + k - dist) 0 := by
  induction n generalizing len with
  | zero =>
    rw [matchLengthFrom]
    exact ⟨le_rfl, fun k hk hk' => absurd hk' (by omega)⟩
  | succ n ih =>
    rw [matchLengthFrom]
    split_ifs with heq
    · obtain ⟨hle, hsame⟩ := ih (len + 1)
      refine ⟨by omega, fun k hk hk' => ?_⟩
      rcases Nat.eq_or_lt_of_le hk with rfl | hlt
      · exact heq
      · exact hsame k hlt hk'
    · exact ⟨by omega, fun k hk hk' => absurd hk' (by omega)⟩

/-- A match that is long enough to be used stays within the data and repeats what is `dist`
before. -/
def GoodMatch (data : List Byte) (pos : ℕ) (best : ℕ × ℕ) : Prop :=
  3 ≤ best.1 → best.1 ≤ 258 ∧ pos + best.1 ≤ data.length ∧ 1 ≤ best.2 ∧ best.2 ≤ 32768 ∧
    best.2 ≤ pos ∧ ∀ k < best.1, data.getD (pos + k) 0 = data.getD (pos + k - best.2) 0

theorem goodMatch_tryDistance {best : ℕ × ℕ} {remaining : ℕ} (hbest : GoodMatch data pos best)
    (hrem : remaining ≤ 258) (hrem' : pos + remaining ≤ data.length) (hdist : 1 ≤ dist)
    (hdist' : dist ≤ 32768) (hpos : dist ≤ pos) :
    GoodMatch data pos (tryDistance data pos remaining dist best) := by
  unfold tryDistance
  dsimp only
  split_ifs with hbetter
  · obtain ⟨hle, hsame⟩ := matchLengthFrom_spec data pos dist remaining 0
    have hle' : matchLength data pos dist remaining ≤ remaining := by rwa [Nat.zero_add] at hle
    refine fun _ => ⟨hle'.trans hrem, by dsimp only; omega, hdist, hdist', hpos, fun k hk => ?_⟩
    exact hsame k (Nat.zero_le k) hk
  · exact hbest

theorem goodMatch_bestMatch (data : List Byte) (rowStride pos : ℕ) :
    GoodMatch data pos (bestMatch data rowStride pos) := by
  have hnone : GoodMatch data pos (0, 0) := fun h => absurd h (by decide)
  unfold bestMatch
  generalize hrem : (if data.length - pos > 258 then 258 else data.length - pos) = remaining
  have hrem1 : remaining ≤ 258 := by split_ifs at hrem <;> omega
  by_cases hthree : remaining ≥ 3
  · have hrem2 : pos + remaining ≤ data.length := by split_ifs at hrem <;> omega
    rw [if_pos hthree]
    have hfirst : GoodMatch data pos
        (if pos ≥ 3 then tryDistance data pos remaining 3 (0, 0) else (0, 0)) := by
      split_ifs with hpos
      · exact goodMatch_tryDistance hnone hrem1 hrem2 (by decide) (by decide) hpos
      · exact hnone
    by_cases hrow : rowStride ≠ 0 ∧ rowStride ≤ 32768 ∧ pos ≥ rowStride
    · rw [if_pos hrow]
      exact goodMatch_tryDistance hfirst hrem1 hrem2 (Nat.one_le_iff_ne_zero.2 hrow.1)
        hrow.2.1 hrow.2.2
    · rw [if_neg hrow]
      exact hfirst
  · rw [if_neg hthree]
    exact hnone

theorem take_succ_getD (h : pos < data.length) :
    data.take pos ++ [data.getD pos 0] = data.take (pos + 1) := by
  rw [getD_eq_getElem _ _ h, take_append_getElem]

/-- A copy of bytes that repeat extends a prefix of the data. -/
theorem lzCopy_take (hpos : dist ≤ pos) (hdist : 1 ≤ dist) (hle : pos + n ≤ data.length)
    (hsame : ∀ k < n, data.getD (pos + k) 0 = data.getD (pos + k - dist) 0) :
    lzCopy dist n (data.take pos) = data.take (pos + n) := by
  induction n generalizing pos with
  | zero => rfl
  | succ n ih =>
    have hlen : (data.take pos).length = pos := by
      rw [length_take]
      omega
    have hbyte : (data.take pos).getD (pos - dist) 0 = data.getD pos 0 := by
      rw [getD_eq_getElem?_getD, getElem?_take_of_lt (by omega), ← getD_eq_getElem?_getD]
      exact (hsame 0 (Nat.succ_pos n)).symm
    have hsame' : ∀ k < n, data.getD (pos + 1 + k) 0 = data.getD (pos + 1 + k - dist) 0 := by
      intro k hk
      have hk' := hsame (k + 1) (Nat.succ_lt_succ hk)
      rwa [show pos + (k + 1) = pos + 1 + k by omega] at hk'
    rw [lzCopy, hlen, hbyte, take_succ_getD (by omega), ih (by omega) (by omega) hsame',
      show pos + 1 + n = pos + (n + 1) by omega]

/-! ## The block -/

/-- A round writes a token that takes the output on, of at most nine bits a byte. What it writes
does not depend on the writer. -/
theorem exists_emitRound (rowStride : ℕ) (hpos : pos < data.length) :
    ∃ t w pos', pos < pos' ∧ pos' ≤ data.length ∧ t.expand (data.take pos) = some (data.take pos') ∧
      TokenBits false fixedLitLengths fixedDistLengths t w ∧ w.length ≤ 9 * (pos' - pos) ∧
      ∀ {cap bw B}, Wrote cap bw B → ∃ bw', emitRound cap data rowStride bw pos = some (bw', pos') ∧
        Wrote cap bw' (B ++ w) := by
  have hgood := goodMatch_bestMatch data rowStride pos
  unfold emitRound
  generalize bestMatch data rowStride pos = best at hgood
  obtain ⟨len, dist⟩ := best
  dsimp only
  by_cases hlen : len ≥ 3
  · obtain ⟨hlen', hend, hdist, hdist', hback, hsame⟩ := hgood hlen
    obtain ⟨w, htoken, hsize, hemit⟩ := exists_emitCopy hlen hlen' hdist hdist'
    refine ⟨.copy len dist, w, pos + len, by omega, hend, ?_, htoken, by omega,
      fun {cap bw B} hw => ?_⟩
    · have htake : (data.take pos).length = pos := by
        rw [length_take]
        omega
      rw [Token.expand, if_pos (by rw [htake]; exact ⟨hdist, hback⟩),
        lzCopy_take hback hdist hend hsame]
    · obtain ⟨bw1, bw2, hfirst, hsecond, hwrote⟩ := hemit hw
      refine ⟨bw2, ?_, hwrote⟩
      rw [if_pos hlen, hfirst]
      show (emitDistance cap bw1 dist >>= fun bw => some (bw, pos + len)) = _
      rw [hsecond]
      rfl
  · have hshort : ∀ sym, (fixedLitCode sym).2 ≤ 9 := fun sym => by
      unfold fixedLitCode
      split_ifs <;> simp
    refine ⟨.lit (data.getD pos 0), _, pos + 1, by omega, hpos, ?_,
      codeBits_fixedLitCode _ (by omega : (data.getD pos 0).toNat < 288), ?_,
        fun {cap bw B} hw => ?_⟩
    · rw [Token.expand, take_succ_getD hpos]
    · rw [length_msbBits, Nat.add_sub_cancel_left]
      exact hshort _
    · rw [if_neg hlen]
      exact ⟨_, rfl, hw.huffman _ _⟩

/-- The loop writes tokens that expand to the rest of the data, and stops early only if their bytes
do not fit. -/
theorem exists_deflateLoop (rowStride : ℕ) {fuel : ℕ} (hpos : pos ≤ data.length)
    (hfuel : data.length - pos < fuel) :
    ∃ ts w, ts.foldlM Token.expand (data.take pos) = some data ∧
      (∀ w', CodeBits fixedLitLengths 256 w' →
        TokensBits false fixedLitLengths fixedDistLengths ts (w ++ w')) ∧
      w.length ≤ 9 * (data.length - pos) ∧
      ∀ {cap bw B}, Wrote cap bw B → B.length / 8 ≤ cap →
        ∃ st bw', deflateLoop cap data rowStride fuel bw pos = some (st, bw') ∧
          ((B ++ w).length / 8 ≤ cap → st = .ok ∧ Wrote cap bw' (B ++ w)) ∧
          (cap < (B ++ w).length / 8 → st = .errNoMemory) := by
  induction fuel generalizing pos with
  | zero => omega
  | succ fuel ih =>
    rcases Nat.lt_or_ge pos data.length with hlt | hge
    · obtain ⟨t, w1, pos', hnext, hend, hexpand, htoken, hsize, hround⟩ :=
        exists_emitRound rowStride hlt
      obtain ⟨ts, w2, hexpand', htokens, hsize', hloop⟩ := ih hend (by omega)
      refine ⟨t :: ts, w1 ++ w2, ?_, fun w' hw' => ?_, ?_, fun {cap bw B} hw hroom => ?_⟩
      · rw [foldlM_cons, hexpand]
        exact hexpand'
      · exact ⟨w1, w2 ++ w', htoken, htokens w' hw', append_assoc _ _ _⟩
      · rw [length_append]
        omega
      · obtain ⟨bw1, hemit, hwrote⟩ := hround hw
        rw [deflateLoop, if_pos hlt, hemit]
        have hmono : (B ++ w1).length / 8 ≤ (B ++ (w1 ++ w2)).length / 8 := by
          simp only [length_append]
          omega
        show ∃ st bw', (if bw1.overflow then some (.errNoMemory, bw1) else
          deflateLoop cap data rowStride fuel bw1 pos') = some (st, bw') ∧ _
        by_cases hover : bw1.overflow = true
        · have hfull := hwrote.overflow_iff.1 hover
          rw [if_pos hover]
          exact ⟨_, _, rfl, fun h => absurd h (by omega), fun _ => rfl⟩
        · have hfits := mt hwrote.overflow_iff.2 hover
          rw [if_neg hover]
          have hrest := hloop hwrote (Nat.not_lt.1 hfits)
          rwa [append_assoc] at hrest
    · have hdone : data.take pos = data := take_of_length_le hge
      refine ⟨[], [], by rw [hdone]; rfl, fun w' hw' => hw', Nat.zero_le _,
        fun {cap bw B} hw hroom => ?_⟩
      rw [deflateLoop, if_neg (by omega), append_nil]
      exact ⟨_, _, rfl, fun _ => ⟨rfl, hw⟩, fun h => absurd h (by omega)⟩

/-- A compressor and an expander for one input: there is an output of at most `bound` bytes that the
compressor writes if it fits, and that is expanded to the input with whatever follows it. -/
def RoundTrip (compress : ℕ → Option (Status × List Byte))
    (expand : List Byte → ℕ → Option (Status × List Byte × ℕ)) (data : List Byte)
    (bound : ℕ) : Prop :=
  ∃ output : List Byte, output.length ≤ bound ∧
    (∀ cap, output.length ≤ cap → compress cap = some (.ok, output)) ∧
    (∀ cap < output.length, ∃ out, compress cap = some (.errNoMemory, out)) ∧
    ∀ rest cap, data.length ≤ cap → expand (output ++ rest) cap = some (.ok, data, output.length)

/-- Once the last byte is full, the output is the bytes of the string, as far as they fit. -/
theorem Wrote.whole (h : Wrote cap bw B) (hzero : bw.bitCount = 0) {bytes : List Byte}
    (hB : B = byteBits bytes) :
    bw.out = bytes.take cap ∧ bw.overflow = decide (cap < bytes.length) := by
  obtain ⟨⟨bytes', hB', hout, hover⟩, -, -⟩ := h
  rw [hzero, lsbBits, append_nil, hB] at hB'
  rw [byteBits_inj hB']
  exact ⟨hout, hover⟩

theorem compressDeflateFixed_ok (hloop : deflateLoop cap data rowStride (data.length + 1)
      (bwBits cap (bwBits cap ⟨[], 0, 0, false⟩ 1 1) 1 2) 0 = some (.ok, bw))
    (hflush : bwFlushByte cap (bwHuffman cap bw (fixedLitCode 256).1 (fixedLitCode 256).2) =
      some bw') :
    compressDeflateFixed cap data rowStride =
      some (if bw'.overflow then .errNoMemory else .ok, bw'.out) := by
  unfold compressDeflateFixed
  dsimp only
  rw [hloop]
  simp only [Option.bind_eq_bind, Option.bind_some, ne_eq, not_true_eq_false, if_false, hflush]
  rfl

theorem roundTrip_fixed (data : List Byte) (rowStride : ℕ) :
    RoundTrip (fun cap => compressDeflateFixed cap data rowStride) compressInflateRaw data
      ((9 * data.length + 10 + 7) / 8) := by
  obtain ⟨ts, w, hexpand, htokens, hsize, hloop⟩ :=
    exists_deflateLoop rowStride (Nat.zero_le data.length)
      (by omega : data.length - 0 < data.length + 1)
  -- The whole string: the header, the tokens, the end of the block, and zeros up to a whole byte.
  have hend := codeBits_fixedLitCode 256 (by decide)
  obtain ⟨eob, heob⟩ : ∃ eob, eob = msbBits (fixedLitCode 256).2 (fixedLitCode 256).1 := ⟨_, rfl⟩
  have heobLen : eob.length = 7 := by rw [heob, length_msbBits]; rfl
  rw [← heob] at hend
  obtain ⟨S, hS⟩ : ∃ S, S = true :: (lsbBits 2 1 ++ (w ++ eob)) := ⟨_, rfl⟩
  have hSlen : S.length = w.length + 10 := by
    simp only [hS, length_cons, length_append, length_lsbBits, heobLen]
    omega
  obtain ⟨output, houtLen, hout⟩ : ∃ bs : List Byte, bs.length = (S.length + 7) / 8 ∧
      byteBits bs = S ++ List.replicate ((8 - S.length % 8) % 8) false :=
    exists_byteBits (by rw [length_append, length_replicate]; omega)
  -- A run of the compressor, by whether the tokens fit.
  have hrun : ∀ cap, ((w.length + 3) / 8 ≤ cap → compressDeflateFixed cap data rowStride =
        some (if decide (cap < output.length) then .errNoMemory else .ok, output.take cap)) ∧
      (cap < (w.length + 3) / 8 → ∃ out, compressDeflateFixed cap data rowStride =
        some (.errNoMemory, out)) := by
    intro cap
    have hstart : Wrote cap _ (true :: lsbBits 2 1) := ((wrote_start cap).bits 1 1).bits 1 2
    obtain ⟨st, bw, hloop', hfits, hfull⟩ := hloop hstart (Nat.zero_le cap)
    constructor
    · intro hle
      obtain ⟨rfl, hwrote⟩ := hfits hle
      have htail := hwrote.huffman (fixedLitCode 256).1 (fixedLitCode 256).2
      rw [← heob, append_assoc, cons_append, ← hS] at htail
      obtain ⟨bw', hflush, hzero, hwhole⟩ := htail.flushFrom (by omega : _ < 8)
      rw [← htail.length, ← hout] at hwhole
      obtain ⟨hbytes, hover⟩ := hwhole.whole hzero rfl
      rw [← hbytes, ← hover]
      exact compressDeflateFixed_ok hloop' hflush
    · intro hlt
      rw [hfull hlt] at hloop'
      unfold compressDeflateFixed
      dsimp only
      rw [hloop']
      exact ⟨_, rfl⟩
  refine ⟨output, by omega, fun cap hcap => ?_, fun cap hcap => ?_, fun rest cap hcap => ?_⟩
  · dsimp only
    rw [(hrun cap).1 (by omega), decide_eq_false (by omega), take_of_length_le hcap]
    rfl
  · rcases Nat.lt_or_ge cap ((w.length + 3) / 8) with hlt | hge
    · exact (hrun cap).2 hlt
    · dsimp only
      rw [(hrun cap).1 hge, decide_eq_true hcap]
      exact ⟨_, rfl⟩
  · have hbits : byteBits (output ++ rest) =
        S ++ (List.replicate ((8 - S.length % 8) % 8) false ++ byteBits rest) := by
      rw [byteBits_append, hout, append_assoc]
    have hblocks : [Block.fixed ts].foldlM Block.expand [] = some data := by
      exact (bind_pure _).trans hexpand
    exact (compressInflateRaw_fits ⟨[.fixed ts], S, _, ⟨w ++ eob, htokens eob hend, hS⟩,
      hblocks, hbits, houtLen⟩ _).1 hcap

/-! ## zlib -/

theorem shiftLeft_or {a b k : ℕ} (hb : b < 2^k) : (a <<< k) ||| b = a * 2^k + b := by
  rw [← Nat.shiftLeft_add_eq_or_of_lt hb, Nat.shiftLeft_eq]

/-- Both sums of the checksum stay below 2^16. -/
theorem adler_lt (p : List Byte) {a b : ℕ} (ha : a < 65536) (hb : b < 65536) :
    (p.foldl adlerRound (a, b)).1 < 65536 ∧ (p.foldl adlerRound (a, b)).2 < 65536 := by
  induction p generalizing a b with
  | nil => exact ⟨ha, hb⟩
  | cons x p ih =>
    have hmod : ∀ v, v % ADLER_MOD < 65536 := fun v =>
      (Nat.mod_lt v (by decide)).trans (by decide : ADLER_MOD < 65536)
    exact ih (hmod _) (hmod _)

theorem compressAdler32_lt (p : List Byte) : compressAdler32 1 p < 2^32 := by
  obtain ⟨ha, hb⟩ := adler_lt p (by decide : 1 &&& 0xFFFF < 65536) (by decide : 1 >>> 16 < 65536)
  unfold compressAdler32
  dsimp only at ha hb ⊢
  rw [shiftLeft_or (by omega)]
  omega

/-- The four bytes of a number, the highest first. -/
theorem beWord_bytes (hv : v < 2^32) (front rest : List Byte) :
    beWord (front ++
      ([BitVec.ofNat 8 (v >>> 24), BitVec.ofNat 8 (v >>> 16), BitVec.ofNat 8 (v >>> 8),
        BitVec.ofNat 8 v] ++ rest)) front.length = v := by
  have hget : ∀ (i : ℕ) (l : List Byte), (front ++ l).getD (front.length + i) 0 = l.getD i 0 := by
    intro i l
    rw [getD_append_right _ _ _ _ (Nat.le_add_right _ _), Nat.add_sub_cancel_left]
  unfold beWord
  dsimp only
  rw [hget, hget, hget, hget]
  show ((BitVec.ofNat 8 (v >>> 24)).toNat <<< 24) ||| ((BitVec.ofNat 8 (v >>> 16)).toNat <<< 16) |||
    ((BitVec.ofNat 8 (v >>> 8)).toNat <<< 8) ||| (BitVec.ofNat 8 v).toNat = v
  simp only [BitVec.toNat_ofNat, Nat.shiftRight_eq_div_pow]
  rw [shiftLeft_or (by rw [Nat.shiftLeft_eq]; omega)]
  have hsecond : v / 2^24 % 2^8 * 2^24 + (v / 2^16 % 2^8) <<< 16 =
      (v / 2^24 % 2^8 * 2^8 + v / 2^16 % 2^8) <<< 16 := by
    rw [Nat.shiftLeft_eq, Nat.shiftLeft_eq]
    ring
  rw [hsecond, shiftLeft_or (by rw [Nat.shiftLeft_eq]; omega)]
  have hthird : (v / 2^24 % 2^8 * 2^8 + v / 2^16 % 2^8) * 2^16 + (v / 2^8 % 2^8) <<< 8 =
      ((v / 2^24 % 2^8 * 2^8 + v / 2^16 % 2^8) * 2^8 + v / 2^8 % 2^8) <<< 8 := by
    rw [Nat.shiftLeft_eq, Nat.shiftLeft_eq]
    ring
  rw [hthird, shiftLeft_or (by omega)]
  -- The digits of `v` to the base 256.
  have hdiv2 : v / 2^16 = v / 2^8 / 2^8 := by rw [Nat.div_div_eq_div_mul, ← pow_add]
  have hdiv3 : v / 2^24 = v / 2^8 / 2^8 / 2^8 := by
    rw [Nat.div_div_eq_div_mul, Nat.div_div_eq_div_mul, ← pow_add, ← pow_add]
  have hmid := Nat.mod_add_div (v / 2^8) (2^8)
  have htop : v / 2^8 / 2^8 / 2^8 % 2^8 = v / 2^8 / 2^8 / 2^8 := Nat.mod_eq_of_lt (by
    rw [← hdiv3]
    exact Nat.div_lt_of_lt_mul hv)
  clear hsecond hthird hdiv2 hdiv3 htop
  omega

theorem roundTrip_zlib :
    RoundTrip (fun cap => compressZlibDeflate cap data rowStride) compressZlibInflate data
      ((9 * data.length + 10 + 7) / 8 + 6) := by
  obtain ⟨payload, hbound, hfits, hfull, hexpand⟩ := roundTrip_fixed data rowStride
  have hadler := compressAdler32_lt data
  obtain ⟨trailer, htrailer⟩ : ∃ t : List Byte, t = [BitVec.ofNat 8 (compressAdler32 1 data >>> 24),
    BitVec.ofNat 8 (compressAdler32 1 data >>> 16), BitVec.ofNat 8 (compressAdler32 1 data >>> 8),
    BitVec.ofNat 8 (compressAdler32 1 data)] := ⟨_, rfl⟩
  have htlen : trailer.length = 4 := by rw [htrailer]; rfl
  have hlen : (0x78#8 :: 0x01#8 :: (payload ++ trailer)).length = payload.length + 6 := by
    rw [length_cons, length_cons, length_append, htlen]
  refine ⟨0x78#8 :: 0x01#8 :: (payload ++ trailer), by omega, fun cap hcap => ?_,
    fun cap hcap => ?_, fun rest cap hcap => ?_⟩
  · dsimp only
    have hok := hfits (cap - 6) (by omega)
    dsimp only at hok
    rw [compressZlibDeflate, if_neg (by omega), hok, htrailer]
    rfl
  · dsimp only
    rw [compressZlibDeflate]
    by_cases hsix : cap < 6
    · rw [if_pos hsix]
      exact ⟨_, rfl⟩
    · obtain ⟨out, hno⟩ := hfull (cap - 6) (by omega)
      dsimp only at hno
      rw [if_neg hsix, hno]
      exact ⟨_, rfl⟩
  · have hinput : 0x78#8 :: 0x01#8 :: (payload ++ trailer) ++ rest =
        (0x78#8 :: 0x01#8 :: payload) ++ (trailer ++ rest) := by
      simp only [cons_append, append_assoc]
    have hword : beWord ((0x78#8 :: 0x01#8 :: payload) ++ (trailer ++ rest)) (2 + payload.length) =
        compressAdler32 1 data := by
      rw [htrailer, Nat.add_comm]
      exact beWord_bytes hadler (0x78#8 :: 0x01#8 :: payload) rest
    have hsize : ((0x78#8 :: 0x01#8 :: payload) ++ (trailer ++ rest)).length =
        payload.length + 6 + rest.length := by
      simp only [length_append, length_cons, htlen]
      omega
    have hraw := hexpand (trailer ++ rest) cap hcap
    rw [hinput, hlen, compressZlibInflate, if_neg (by omega)]
    -- CMF 0x78 and FLG 0x01 pass the four checks of the header.
    show (if (0x78 &&& 0x0F : ℕ) ≠ 8 then _ else if (0x78 >>> 4 : ℕ) > 7 then _ else
      if ((0x78 * 256 + 1 : ℕ)) % 31 ≠ 0 then _ else if (1 &&& 0x20 : ℕ) ≠ 0 then _ else _) = _
    show (compressInflateRaw (payload ++ (trailer ++ rest)) cap >>= fun r => _) = _
    rw [hraw]
    show (if _ then _ else if _ then _ else _) = _
    rw [if_neg (by omega), hword, if_neg (not_not.2 rfl), Nat.add_right_comm,
      Nat.add_comm _ payload.length]
    rfl

/-- Both compressors write an output of bounded size exactly if it fits, and it expands to the
input. -/
theorem compress_roundTrip (data : List Byte) (rowStride : ℕ) :
    RoundTrip (fun cap => compressDeflateFixed cap data rowStride) compressInflateRaw data
        ((9 * data.length + 10 + 7) / 8) ∧
      RoundTrip (fun cap => compressZlibDeflate cap data rowStride) compressZlibInflate data
        ((9 * data.length + 10 + 7) / 8 + 6) :=
  ⟨roundTrip_fixed data rowStride, roundTrip_zlib⟩

end Bongos.Compress
