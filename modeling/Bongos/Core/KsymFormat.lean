import Bongos.Core.Ksym

/-!
# Reading back what the encoder wrote

Each reader of `ksym.c` gets, from a place where the matching writer of `ksyms-encode.c` put a
value, that value. The compression keeps what a name stands for: expanding the tokens of a
compressed name gives the name, cut to what fits in front of the `NUL`.
-/

namespace Bongos.Core

open Tools List Option

variable {blob : List Byte} {off : ℕ}

/-! ## Numbers -/

variable {b a : Byte} {bs seq : List Byte} {names tokens seqs : List (List Byte)}
  {outCap tokenOffset : ℕ}

theorem readU8_slice (h : SliceAt blob off (b :: bs)) : readU8 blob off = some b := h.head

theorem readU16_slice {v : BitVec 16} (h : SliceAt blob off (bufU16 v)) :
    readU16 blob off = some v := by
  have hv : (v.setWidth 8).setWidth 16 ||| ((v >>> 8).setWidth 8).setWidth 16 <<< 8 = v := by
    grind
  rw [readU16, h.head, h.tail.head]
  exact congrArg some hv

theorem readU32_slice {v : BitVec 32} (h : SliceAt blob off (bufU32 v)) :
    readU32 blob off = some v := by
  have hv : ((v.setWidth 16).setWidth 8).setWidth 32 |||
      ((v.setWidth 16 >>> 8).setWidth 8).setWidth 32 <<< 8 |||
      (((v >>> 16).setWidth 16).setWidth 8).setWidth 32 <<< 16 |||
      (((v >>> 16).setWidth 16 >>> 8).setWidth 8).setWidth 32 <<< 24 = v := by
    ext i hi
    simp
    grind
  rw [readU32, h.head, h.tail.head, h.tail.tail.head, h.tail.tail.tail.head]
  exact congrArg some hv

theorem readU64_slice {v : BitVec 64} (h : SliceAt blob off (bufU64 v)) :
    readU64 blob off = some v := by
  have hv : (v.setWidth 32).setWidth 64 ||| ((v >>> 32).setWidth 32).setWidth 64 <<< 32 = v := by
    grind
  have hhigh : readU32 blob (off + 4) = some ((v >>> 32).setWidth 32) := readU32_slice h.right
  rw [readU64, readU32_slice h.left, hhigh]
  exact congrArg some hv

theorem length_bufU16 (v : BitVec 16) : (bufU16 v).length = 2 := rfl

theorem getLsbD_0x7F (j : ℕ) : (0x7F#8).getLsbD j = decide (j < 7) := by
  by_cases hj : j < 8
  · have hall : ∀ j : Fin 8, (0x7F#8).getLsbD j = decide (j.val < 7) := by decide
    exact hall ⟨j, hj⟩
  · rw [BitVec.getLsbD_of_ge _ _ (by omega), decide_eq_false (by omega)]

/-- The seven low bits and the rest. -/
theorem low_or_high (w : BitVec 64) (shift : ℕ) :
    (w.setWidth 8 &&& 0x7F).setWidth 64 <<< shift ||| (w >>> 7) <<< (shift + 7) = w <<< shift := by
  ext i hi
  simp only [BitVec.getElem_or, BitVec.getElem_shiftLeft, BitVec.getElem_setWidth,
    BitVec.getLsbD_and, BitVec.getLsbD_setWidth, BitVec.ofNat_eq_ofNat, getLsbD_0x7F,
    BitVec.getElem_ushiftRight]
  by_cases hs : i < shift
  · simp [hs]
    omega
  · by_cases h7 : i - shift < 7
    · grind
    · grind

/-- What a byte of a number says: its seven bits, and whether another byte follows. -/
theorem uleb_byte : ∀ x : Byte, (x &&& 0x7F) &&& 0x7F = x &&& 0x7F ∧ (x &&& 0x7F) &&& 0x80 = 0 ∧
    ((x &&& 0x7F) ||| 0x80) &&& 0x7F = x &&& 0x7F ∧ ((x &&& 0x7F) ||| 0x80) &&& 0x80 ≠ 0 := by
  decide

/-- From the middle of a number on: the bits of `w` are read to their place. -/
theorem readUleb128Loop_slice {fuel shift : ℕ} {w : BitVec 64} (result : BitVec 64)
    (hshift : shift < 64) (hfuel : 64 < shift + 7 * fuel) (hw : w.toNat < 2 ^ (64 - shift))
    (h : SliceAt blob off (bufUleb128Loop fuel w)) :
    readUleb128Loop blob fuel off shift result =
      some (result ||| w <<< shift, off + (bufUleb128Loop fuel w).length) := by
  induction fuel generalizing off shift w result with
  | zero => omega
  | succ fuel ih =>
    obtain ⟨hlow, hlast, hlow', hmore⟩ := uleb_byte (w.setWidth 8)
    have hsplit := low_or_high w shift
    unfold bufUleb128Loop at h ⊢
    by_cases hrest : w >>> 7 = 0
    · rw [if_neg (not_not.2 hrest)] at h ⊢
      rw [hrest] at hsplit
      have hzero : (0 : BitVec 64) <<< (shift + 7) = 0#64 := BitVec.zero_shiftLeft _
      rw [hzero, BitVec.or_zero] at hsplit
      rw [readUleb128Loop, readU8_slice h]
      simp only [bind_eq_bind, bind_some]
      rw [if_pos hlast, hlow, hsplit]
      rfl
    · rw [if_pos hrest] at h ⊢
      have hdiv : (w >>> 7).toNat = w.toNat / 128 := by
        rw [BitVec.toNat_ushiftRight, Nat.shiftRight_eq_div_pow]
      have hpos : (w >>> 7).toNat ≠ 0 := fun h0 => hrest (BitVec.eq_of_toNat_eq h0)
      -- There are more bits, so the next seven still have a place.
      have hshift' : shift + 7 < 64 := by
        by_contra hge
        have hpow : 2 ^ (64 - shift) ≤ 2 ^ 7 := Nat.pow_le_pow_right (by decide) (by omega)
        omega
      have hw' : (w >>> 7).toNat < 2 ^ (64 - (shift + 7)) := by
        have hpow : 2 ^ (64 - shift) = 2 ^ (64 - (shift + 7)) * 2 ^ 7 := by
          rw [← Nat.pow_add]
          congr 1
          omega
        omega
      rw [readUleb128Loop, readU8_slice h]
      simp only [bind_eq_bind, bind_some]
      rw [if_neg hmore, if_neg (by omega), hlow',
        ih _ hshift' (by omega) hw' h.tail, BitVec.or_assoc, hsplit, length_cons]
      congr 2
      omega

theorem readUleb128_slice {v : BitVec 64} (h : SliceAt blob off (bufUleb128 v)) :
    readUleb128 blob off = some (v, off + (bufUleb128 v).length) := by
  have hread := readUleb128Loop_slice 0 (by decide : 0 < 64) (by decide) v.isLt h
  rw [readUleb128, hread]
  simp [bufUleb128]

/-! ## Compression -/

/-- A byte that stands for something: a literal, or a token that exists. -/
def KnownByte (tokens : List (List Byte)) (b : Byte) : Prop :=
  b < 0x80 ∨ b.toNat - 0x80 < tokens.length

/-- `seq` is a compressed form of `name`. -/
structure CompressedName (tokens : List (List Byte)) (name seq : List Byte) : Prop where
  expand : seq.flatMap (expansion tokens) = name
  known : ∀ b ∈ seq, KnownByte tokens b
  length_le : seq.length ≤ name.length

/-- What the rounds of the compression keep. -/
structure Compressed (names tokens seqs : List (List Byte)) : Prop where
  length_eq : seqs.length = names.length
  name : ∀ (i : ℕ) name seq, names[i]? = some name → seqs[i]? = some seq →
    CompressedName tokens name seq
  expansion_le : ∀ t ∈ tokens, t.length ≤ KSYM_MAX_TOKEN_EXPANSION

theorem Compressed.of_mem (h : Compressed names tokens seqs) (hseq : seq ∈ seqs) :
    ∃ name, CompressedName tokens name seq := by
  obtain ⟨i, hi⟩ := mem_iff_getElem?.1 hseq
  obtain ⟨hlt, -⟩ := List.getElem?_eq_some_iff.1 hi
  exact ⟨_, h.name i _ seq (List.getElem?_eq_getElem (h.length_eq ▸ hlt)) hi⟩

theorem mem_of_pairsIn {l : List Byte} (h : pairsIn a b l ≠ 0) : a ∈ l ∧ b ∈ l := by
  fun_induction pairsIn a b l with
  | case1 x y rest ih =>
    by_cases hxy : x = a ∧ y = b
    · simp [hxy.1, hxy.2]
    · rw [if_neg hxy, Nat.zero_add] at h
      exact (ih h).imp (mem_cons_of_mem x) (mem_cons_of_mem x)
  | case2 l hl => exact absurd rfl h

/-- A pair that was counted stands in one of the sequences. -/
theorem exists_of_pairCount (h : pairCount seqs a b ≠ 0) : ∃ seq ∈ seqs, a ∈ seq ∧ b ∈ seq := by
  have hpos : 0 < (seqs.map (pairsIn a b)).sum := by
    refine Nat.pos_of_ne_zero fun hzero => h ?_
    rw [pairCount, hzero, Nat.zero_mod]
  obtain ⟨n, hn, hn0⟩ := List.sum_pos_iff_exists_pos_nat.1 hpos
  obtain ⟨seq, hseq, rfl⟩ := List.mem_map.1 hn
  exact ⟨seq, hseq, mem_of_pairsIn (Nat.ne_of_gt hn0)⟩

/-- The pair that a round has found so far. -/
structure PairFound (tokens seqs : List (List Byte)) (best : BestPair) : Prop where
  counted : pairCount seqs best.bestA best.bestB ≠ 0
  bestExp_eq : best.bestExp = expansion tokens best.bestA ++ expansion tokens best.bestB
  length_le : best.bestExp.length ≤ KSYM_MAX_TOKEN_EXPANSION

theorem bpeBest_spec (tokens seqs : List (List Byte)) :
    (bpeBest tokens seqs).bestCount = 0 ∨ PairFound tokens seqs (bpeBest tokens seqs) := by
  refine List.foldlRecOn (List.range 65536) _ (motive := fun best : BestPair =>
    best.bestCount = 0 ∨ PairFound tokens seqs best) (.inl rfl) fun best hbest pair _ => ?_
  unfold bpeConsider
  dsimp only
  split_ifs with hmin hlong hmore
  · exact hbest
  · exact hbest
  · refine .inr ⟨?_, rfl, ?_⟩
    · dsimp only
      omega
    · rw [length_append]
      exact Nat.not_lt.1 hlong
  · exact hbest

/-- A new token changes nothing for the bytes that are known already. -/
theorem expansion_concat (hb : KnownByte tokens b)
    (t : List Byte) : expansion (tokens ++ [t]) b = expansion tokens b := by
  unfold expansion
  split_ifs with hlit
  · rfl
  · rw [getD_eq_getElem?_getD, getElem?_append_left (hb.resolve_left hlit),
      ← getD_eq_getElem?_getD]

/-- The byte of a new token. -/
theorem expansion_newToken (h : tokens.length < KSYM_MAX_TOKENS) (t : List Byte) :
    expansion (tokens ++ [t]) (BitVec.ofNat 8 (0x80 + tokens.length)) = t ∧
      KnownByte (tokens ++ [t]) (BitVec.ofNat 8 (0x80 + tokens.length)) := by
  unfold KSYM_MAX_TOKENS at h
  have hnat : (BitVec.ofNat 8 (0x80 + tokens.length)).toNat = 0x80 + tokens.length := by
    rw [BitVec.toNat_ofNat, Nat.mod_eq_of_lt (by omega)]
  have hlit : ¬ BitVec.ofNat 8 (0x80 + tokens.length) < 0x80 := by
    rw [BitVec.lt_def, hnat]
    exact Nat.not_lt.2 (Nat.le_add_right _ _)
  constructor
  · rw [expansion, if_neg hlit, hnat, Nat.add_sub_cancel_left]
    simp
  · refine .inr ?_
    rw [hnat, length_append]
    simp

/-- One round. -/
theorem Compressed.round (h : Compressed names tokens seqs)
    (hroom : tokens.length < KSYM_MAX_TOKENS) {best : BestPair}
    (hbest : PairFound tokens seqs best) :
    Compressed names (tokens ++ [best.bestExp])
      (seqs.map (replacePair best.bestA best.bestB (BitVec.ofNat 8 (0x80 + tokens.length)))) := by
  obtain ⟨hnew, hknown⟩ := expansion_newToken hroom best.bestExp
  -- Both bytes of the pair stand in a sequence, so they are known.
  obtain ⟨seq, hseq, ha, hb⟩ := exists_of_pairCount hbest.counted
  obtain ⟨name, hname⟩ := h.of_mem hseq
  have hpair : expansion (tokens ++ [best.bestExp]) (BitVec.ofNat 8 (0x80 + tokens.length)) =
      expansion (tokens ++ [best.bestExp]) best.bestA ++
        expansion (tokens ++ [best.bestExp]) best.bestB := by
    rw [hnew, expansion_concat (hname.known _ ha), expansion_concat (hname.known _ hb)]
    exact hbest.bestExp_eq
  refine ⟨by rw [length_map, h.length_eq], fun i name seq hi hseq' => ?_, fun t ht => ?_⟩
  · rw [getElem?_map, map_eq_some_iff] at hseq'
    obtain ⟨seq, hseq', rfl⟩ := hseq'
    obtain ⟨hexp, hkn, hlen⟩ := h.name i name seq hi hseq'
    refine ⟨?_, fun b hb => ?_, Nat.le_trans (length_replacePair_le _ _ _ seq) hlen⟩
    · rw [flatMap_replacePair hpair, ← hexp]
      exact flatMap_congr fun b hb => expansion_concat (hkn b hb) _
    · rcases mem_replacePair hb with rfl | hb
      · exact hknown
      · refine (hkn b hb).imp_right fun hlt => ?_
        rw [length_append]
        exact Nat.lt_add_right _ hlt
  · rcases mem_append.1 ht with ht | ht
    · exact h.expansion_le t ht
    · rw [mem_singleton.1 ht]
      exact hbest.length_le

theorem bpeRounds_spec {rounds : ℕ}
    (h : Compressed names tokens seqs) (hroom : tokens.length + rounds ≤ KSYM_MAX_TOKENS) :
    Compressed names (bpeRounds rounds tokens seqs).1 (bpeRounds rounds tokens seqs).2 ∧
      (bpeRounds rounds tokens seqs).1.length ≤ KSYM_MAX_TOKENS := by
  induction rounds generalizing tokens seqs with
  | zero => exact ⟨h, hroom⟩
  | succ rounds ih =>
    unfold bpeRounds
    dsimp only
    split_ifs with hstop
    · exact ⟨h, Nat.le_trans (Nat.le_add_right _ _) hroom⟩
    · have hbest := (bpeBest_spec tokens seqs).resolve_left hstop
      refine ih (h.round (by omega) hbest) ?_
      rw [length_append, length_singleton]
      omega

/-- Names of plain bytes stand for themselves, and the compression keeps that. -/
theorem bpeCompress_spec (names : List (List Byte))
    (hascii : ∀ name ∈ names, ∀ b ∈ name, b < 0x80) :
    Compressed names (bpeCompress names).1 (bpeCompress names).2 ∧
      (bpeCompress names).1.length ≤ KSYM_MAX_TOKENS := by
  refine bpeRounds_spec ⟨rfl, fun i name seq hi hseq => ?_, fun t ht => ?_⟩ (by simp)
  · obtain rfl : name = seq := Option.some.inj (hi.symm.trans hseq)
    have hlit := hascii name (mem_of_getElem? hi)
    refine ⟨?_, fun b hb => .inl (hlit b hb), Nat.le_refl _⟩
    calc name.flatMap (expansion []) = name.flatMap fun b => [b] :=
          flatMap_congr fun b hb => if_pos (hlit b hb)
      _ = name := flatMap_singleton' name
  · exact (not_mem_nil ht).elim

/-! ## Names -/

/-- Bytes are put until the buffer is full. -/
theorem foldl_putByte (l out : List Byte) (h : out.length ≤ outCap - 1) :
    l.foldl (putByte outCap) out = (out ++ l).take (outCap - 1) := by
  induction l generalizing out with
  | nil => rw [foldl_nil, append_nil, take_of_length_le h]
  | cons b l ih =>
    rw [foldl_cons]
    by_cases hroom : out.length + 1 < outCap
    · have hput : putByte outCap out b = out ++ [b] := if_pos hroom
      have hlen : (out ++ [b]).length ≤ outCap - 1 := by
        rw [length_append, length_singleton]
        omega
      rw [hput, ih _ hlen, append_assoc, singleton_append]
    · have hput : putByte outCap out b = out := if_neg hroom
      have hfull : outCap - 1 = out.length := by omega
      rw [hput, ih _ h, hfull, take_left, take_left]

theorem expandToken_slice (out : List Byte) (h : SliceAt blob off bs) :
    expandToken blob outCap bs.length off out = some (bs.foldl (putByte outCap) out) := by
  induction bs generalizing off out with
  | nil => rfl
  | cons b bs ih =>
    rw [length_cons, expandToken, readU8_slice h]
    exact ih _ h.tail

/-- The token directory at `tokenOffset`, and the pool behind it. -/
structure TokenTable (blob : List Byte) (tokenOffset : ℕ) (tokens : List (List Byte)) : Prop where
  length_le : tokens.length ≤ KSYM_MAX_TOKENS
  entry : ∀ i t, tokens[i]? = some t → ∃ poolOff : ℕ, poolOff < 2 ^ 16 ∧ t.length < 256 ∧
    SliceAt blob (tokenOffset + i * 4)
      (bufU16 (BitVec.ofNat 16 poolOff) ++ [BitVec.ofNat 8 t.length, 0]) ∧
    SliceAt blob (tokenOffset + tokens.length * 4 + poolOff) t

theorem expandLoop_slice (ht : TokenTable blob tokenOffset tokens) (out : List Byte)
    (hknown : ∀ b ∈ seq, KnownByte tokens b) (h : SliceAt blob off seq) :
    expandLoop blob tokenOffset tokens.length outCap seq.length off out =
      some ((seq.flatMap (expansion tokens)).foldl (putByte outCap) out) := by
  induction seq generalizing off out with
  | nil => rfl
  | cons b seq ih =>
    obtain ⟨hb, hknown⟩ := forall_mem_cons.1 hknown
    rw [length_cons, expandLoop, readU8_slice h, flatMap_cons, foldl_append]
    simp only [bind_eq_bind, bind_some]
    by_cases hlit : b < 0x80
    · rw [if_pos hlit, expansion, if_pos hlit]
      exact ih _ hknown h.tail
    · have hidx := hb.resolve_left hlit
      obtain ⟨t, htok⟩ : ∃ t, tokens[b.toNat - 0x80]? = some t :=
        ⟨_, List.getElem?_eq_getElem hidx⟩
      obtain ⟨poolOff, hpool, hlen, hentry, hslice⟩ := ht.entry _ t htok
      have hexp : expansion tokens b = t := by
        rw [expansion, if_neg hlit, getD_eq_getElem?_getD, htok]
        rfl
      have hlen' : readU8 blob (tokenOffset + (b.toNat - 0x80) * 4 + 2) =
          some (BitVec.ofNat 8 t.length) := readU8_slice hentry.right
      rw [if_neg hlit, if_neg (Nat.not_le.2 hidx), readU16_slice hentry.left, hlen']
      simp only [bind_some]
      rw [BitVec.toNat_ofNat, BitVec.toNat_ofNat, Nat.mod_eq_of_lt hpool, Nat.mod_eq_of_lt hlen,
        expandToken_slice out hslice, bind_some, hexp]
      exact ih _ hknown h.tail

/-- `expandName` gives the name, cut to the buffer, and the `NUL`. -/
theorem expandName_slice (ht : TokenTable blob tokenOffset tokens) {name : List Byte}
    (hname : CompressedName tokens name seq) (hlen : seq.length < 256) (hcap : 1 ≤ outCap)
    (h : SliceAt blob off seq) :
    expandName blob tokenOffset tokens.length off (BitVec.ofNat 8 seq.length) outCap =
      some (name.take (outCap - 1) ++ [0]) := by
  rw [expandName, BitVec.toNat_ofNat, Nat.mod_eq_of_lt hlen, expandLoop_slice ht [] hname.known h,
    hname.expand, foldl_putByte name [] (Nat.zero_le _)]
  simp [Nat.pos_of_ne_zero (Nat.one_le_iff_ne_zero.1 hcap)]

end Bongos.Core
