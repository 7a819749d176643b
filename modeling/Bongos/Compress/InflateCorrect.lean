import Bongos.Compress.TreesCorrect

/-!
# Inflate decodes the format

Each part of `compressInflateRaw` returns the expansion of what stands in its input if there is a
string of the format there and the output has room (`…_fits`). It always returns, since every round
reads at least one bit, and only a string of the format is decoded (`…_decodes`).
-/

namespace Bongos.Compress

open List

variable {data : List Byte} {br br' : BitReader data} {lit dist : List ℕ}
  {litTree distTree : HuffTree}
  {out out' : List Byte} {w rest : List Bool} {t : Token} {tokens : List Token} {cap fuel pos : ℕ}
  {alt : Bool} {b : Block} {blocks : List Block}

/-! ## Copies -/

@[simp]
theorem length_lzCopy (d n : ℕ) : (lzCopy d n out).length = out.length + n := by
  induction n generalizing out with
  | zero => rfl
  | succ n ih =>
    rw [lzCopy, ih, length_append, length_singleton]
    omega

theorem prefix_lzCopy (d n : ℕ) (out : List Byte) : out <+: lzCopy d n out := by
  induction n generalizing out with
  | zero => exact prefix_rfl
  | succ n ih => exact (prefix_append out _).trans (ih _)

/-- The last byte of a copy. -/
theorem lzCopy_succ (d n : ℕ) : lzCopy d (n + 1) out =
    lzCopy d n out ++ [(lzCopy d n out).getD ((lzCopy d n out).length - d) 0] := by
  induction n generalizing out with
  | zero => rfl
  | succ n ih => exact ih

theorem copyMatch_eq {d : ℕ} (hd : d ≤ out.length) (n : ℕ) :
    copyMatch out (out.length - d) n = lzCopy d n out := by
  induction n with
  | zero => rfl
  | succ n ih =>
    rw [copyMatch] at ih ⊢
    rw [range_succ, foldl_append, ih, foldl_cons, foldl_nil, lzCopy_succ, length_lzCopy]
    congr 3
    omega

/-! ## The strict format -/

/-- A string of the strict format is one of the wider format. -/
theorem TokenBits.mono (h : TokenBits alt lit dist t w) : TokenBits true lit dist t w := by
  cases t with
  | lit b => exact h
  | copy length distance =>
    obtain ⟨ls, le, ds, de, w1, w2, ⟨hls, hle, hlen, -⟩, hrest⟩ := h
    exact ⟨ls, le, ds, de, w1, w2, ⟨hls, hle, hlen, fun h => nomatch h⟩, hrest⟩

theorem TokensBits.mono (h : TokensBits alt lit dist tokens w) :
    TokensBits true lit dist tokens w := by
  induction tokens generalizing w with
  | nil => exact h
  | cons t ts ih =>
    obtain ⟨w1, w2, ht, hts, rfl⟩ := h
    exact ⟨w1, w2, ht.mono, ih hts, rfl⟩

theorem BodyBits.mono (h : BodyBits alt pos b w) : BodyBits true pos b w := by
  cases b with
  | stored bytes => exact h
  | fixed tokens => exact TokensBits.mono h
  | dynamic lit dist tokens =>
    obtain ⟨w1, w2, hd, hcodes, htokens, rfl⟩ := h
    exact ⟨w1, w2, hd, hcodes, htokens.mono, rfl⟩

theorem StreamBits.mono (h : StreamBits alt pos blocks w) : StreamBits true pos blocks w := by
  induction blocks generalizing pos w with
  | nil => exact h
  | cons b bs ih =>
    cases bs with
    | nil =>
      obtain ⟨w1, hb, rfl⟩ := h
      exact ⟨w1, hb.mono, rfl⟩
    | cons b' bs =>
      obtain ⟨w1, w2, hb, hbs, rfl⟩ := h
      exact ⟨w1, w2, hb.mono, ih hbs, rfl⟩

/-! ## The tokens of a block -/

theorem CodeBits.length_pos {sym : ℕ} (h : CodeBits lit sym w) : 0 < w.length := by
  rw [h.2, codeword, length_msbBits]
  exact Nat.pos_of_ne_zero h.1.2

theorem TokenBits.length_pos (h : TokenBits alt lit dist t w) : 0 < w.length := by
  cases t with
  | lit b => exact CodeBits.length_pos h
  | copy length distance =>
    obtain ⟨ls, le, ds, de, w1, w2, -, -, hcode, -, rfl⟩ := h
    have := hcode.length_pos
    rw [length_append]
    omega

theorem TokensBits.length_lt (h : TokensBits alt lit dist tokens w) : tokens.length < w.length := by
  induction tokens generalizing w with
  | nil => exact CodeBits.length_pos h
  | cons t ts ih =>
    obtain ⟨w1, w2, ht, hts, rfl⟩ := h
    have hone := ht.length_pos
    have hrest := ih hts
    rw [length_append, length_cons]
    omega

/-- A token adds to the output. -/
theorem Token.prefix_expand (h : t.expand out = some out') : out <+: out' := by
  cases t with
  | lit b =>
    cases h
    exact prefix_append out [b]
  | copy length distance =>
    rw [Token.expand] at h
    split_ifs at h
    cases h
    exact prefix_lzCopy distance length out

theorem prefix_foldlM {α : Type} {f : List Byte → α → Option (List Byte)} {l : List α}
    (hf : ∀ {out a out'}, f out a = some out' → out <+: out') (h : l.foldlM f out = some out') :
    out <+: out' := by
  induction l generalizing out with
  | nil =>
    cases h
    exact prefix_rfl
  | cons a l ih =>
    obtain ⟨out1, hone, hrest⟩ := Option.bind_eq_some_iff.1 h
    exact (hf hone).trans (ih hrest)

/-- What a run on a string that expands to `out'` returns: `out'`, with `rest` still to be read, if
there is room for it, and else a part of it. -/
def Fits (cap : ℕ) (out' : List Byte) (rest : List Bool)
    (r : Option (Status × List Byte × BitReader data)) : Prop :=
  (out'.length ≤ cap → ∃ br', r = some (.ok, out', br') ∧ br'.bits = rest) ∧
    (cap < out'.length → ∃ o br', r = some (.errNoMemory, o, br') ∧ o.length ≤ cap ∧ o <+: out')

theorem Fits.full {o : List Byte} (hlt : cap < out'.length) (ho : o.length ≤ cap)
    (hpre : o <+: out') : Fits cap out' rest (some (.errNoMemory, o, br)) :=
  ⟨fun hle => absurd hlt (not_lt.2 hle), fun _ => ⟨o, br, rfl, ho, hpre⟩⟩

/-- A part that starts at `br` returns, with no more output than there is room for, and what it
decodes is a string of `body`. -/
def Decodes (cap : ℕ) (br : BitReader data) (body : List Byte → List Bool → Prop)
    (r : Option (Status × List Byte × BitReader data)) : Prop :=
  ∃ st out br', r = some (st, out, br') ∧ out.length ≤ cap ∧
    (st = .ok → ∃ w, body out w ∧ br.bits = w ++ br'.bits)

variable {body body' : List Byte → List Bool → Prop}

theorem Decodes.fail {st : Status} (hcap : out.length ≤ cap) (hst : st ≠ .ok) :
    Decodes cap br body (some (st, out, br')) :=
  ⟨st, out, br', rfl, hcap, fun h => absurd h hst⟩

/-- A part that starts after the bits `w`. -/
theorem Decodes.after {r : Option (Status × List Byte × BitReader data)}
    (h : Decodes cap br' body r) (hbits : br.bits = w ++ br'.bits)
    (hbody : ∀ o w', body o w' → body' o (w ++ w')) :
    Decodes cap br body' r := by
  obtain ⟨st, o, br1, hrun, ho, hok⟩ := h
  refine ⟨st, o, br1, hrun, ho, fun hst => ?_⟩
  obtain ⟨w', hw', hbits'⟩ := hok hst
  exact ⟨w ++ w', hbody o w' hw', by rw [hbits, hbits', append_assoc]⟩

/-- A round of `inflateBlockData`, by the meaning of the token that it reads. -/
theorem inflateBlockData_succ (hcap : out.length ≤ cap) :
    inflateBlockData litTree distTree cap (fuel + 1) br out =
      match readToken litTree distTree br with
      | none => some (.errInvalid, out, br)
      | some (none, br') => some (.ok, out, br')
      | some (some t, br') =>
        match t.expand out with
        | none => some (.errInvalid, out, br')
        | some out' =>
          if out'.length ≤ cap then inflateBlockData litTree distTree cap fuel br' out'
          else some (.errNoMemory, out, br') := by
  rw [inflateBlockData]
  rcases readToken litTree distTree br with _ | ⟨_ | t, br'⟩
  · rfl
  · rfl
  · cases t with
    | lit b =>
      dsimp only [Token.expand]
      rw [length_append, length_singleton]
      by_cases hfull : out.length ≥ cap
      · rw [if_pos hfull, if_neg (by omega)]
      · rw [if_neg hfull, if_pos (by omega)]
    | copy length distance =>
      dsimp only [Token.expand]
      by_cases hfar : distance = 0 ∨ distance > out.length
      · rw [if_pos hfar, if_neg (by omega : ¬ (0 < distance ∧ distance ≤ out.length))]
      · rw [if_neg hfar, if_pos (by omega : 0 < distance ∧ distance ≤ out.length)]
        dsimp only
        rw [length_lzCopy, copyMatch_eq (by omega)]
        by_cases hfull : length > cap - out.length
        · rw [if_pos hfull, if_neg (by omega)]
        · rw [if_neg hfull, if_pos (by omega)]

section Block

variable (hlit : huffBuild lit false = some litTree) (hdist : huffBuild dist false = some distTree)

include hlit hdist

theorem inflateBlockData_fits (hbits : TokensBits true lit dist tokens w)
    (hexp : tokens.foldlM Token.expand out = some out') (hcap : out.length ≤ cap)
    (hbr : br.bits = w ++ rest) (hfuel : tokens.length < fuel) :
    Fits cap out' rest (inflateBlockData litTree distTree cap fuel br out) := by
  induction tokens generalizing fuel br out w with
  | nil =>
    cases hexp
    obtain ⟨fuel, rfl⟩ := Nat.exists_eq_add_of_lt hfuel
    obtain ⟨br', hread, hrest⟩ := (reads_readToken hlit hdist).complete (a := none) hbits hbr
    refine ⟨fun _ => ⟨br', ?_, hrest⟩, fun hlt => absurd hcap (not_le.2 hlt)⟩
    rw [inflateBlockData_succ hcap, hread]
  | cons t ts ih =>
    obtain ⟨w1, w2, ht, hts, rfl⟩ := hbits
    obtain ⟨out1, hone, hexp'⟩ := Option.bind_eq_some_iff.1 hexp
    have hpre := prefix_foldlM Token.prefix_expand hexp'
    obtain ⟨fuel, rfl⟩ : ∃ n, fuel = n + 1 := ⟨fuel - 1, by omega⟩
    rw [append_assoc] at hbr
    obtain ⟨br1, hread, hrest⟩ := (reads_readToken hlit hdist).complete (a := some t) ht hbr
    rw [inflateBlockData_succ hcap, hread]
    dsimp only
    rw [hone]
    dsimp only
    split_ifs with hroom
    · exact ih hts hexp' hroom hrest (Nat.lt_of_succ_lt_succ hfuel)
    · exact .full ((not_le.1 hroom).trans_le hpre.length_le) hcap
        ((Token.prefix_expand hone).trans hpre)

/-- Every round reads. -/
theorem inflateBlockData_decodes (hfuel : br.bits.length < fuel) (hcap : out.length ≤ cap) :
    Decodes cap br (fun out' w => ∃ tokens, TokensBits true lit dist tokens w ∧
      tokens.foldlM Token.expand out = some out')
      (inflateBlockData litTree distTree cap fuel br out) := by
  induction fuel generalizing br out with
  | zero => omega
  | succ fuel ih =>
    rw [inflateBlockData_succ hcap]
    rcases hread : readToken litTree distTree br with _ | ⟨t, br1⟩
    · exact .fail hcap (by decide)
    obtain ⟨w1, ht, hbits⟩ := (reads_readToken hlit hdist).sound hread
    cases t with
    | none => exact ⟨_, _, _, rfl, hcap, fun _ => ⟨w1, ⟨[], ht, rfl⟩, hbits⟩⟩
    | some t =>
      have hpos := TokenBits.length_pos ht
      have hlen := congrArg List.length hbits
      rw [length_append] at hlen
      dsimp only
      split
      · exact .fail hcap (by decide)
      next out1 hone =>
        split_ifs with hroom
        · have hfuel1 : br1.bits.length < fuel := by omega
          refine (ih hfuel1 hroom).after hbits ?_
          rintro o w2 ⟨ts, hts, hexp⟩
          refine ⟨t :: ts, ⟨w1, w2, ht, hts, rfl⟩, ?_⟩
          rw [foldlM_cons, hone]
          exact hexp
        · exact .fail hcap (by decide)

end Block

/-! ## The parts of a block -/

theorem buildFixedTrees_spec : ∃ lit dist, huffBuild fixedLitLengths false = some lit ∧
    huffBuild fixedDistLengths false = some dist ∧ buildFixedTrees = some (lit, dist) := by
  obtain ⟨lit, hlit⟩ : ∃ h, huffBuild fixedLitLengths false = some h :=
    huffBuild_isSome_iff.2 ⟨by decide +kernel, by decide +kernel, .inr (.inl (by decide +kernel))⟩
  obtain ⟨dist, hdist⟩ : ∃ h, huffBuild fixedDistLengths false = some h :=
    huffBuild_isSome_iff.2 ⟨by decide +kernel, by decide +kernel, .inr (.inl (by decide +kernel))⟩
  refine ⟨lit, dist, hlit, hdist, ?_⟩
  rw [buildFixedTrees, hlit, hdist]
  rfl

theorem reads_readHeader : Reads BitReader.bits (readHeader : BitM data (Bool × ℕ)) fun r w =>
    r.2 < 4 ∧ w = r.1 :: lsbBits 2 r.2 := by
  refine (reads_brBit.bind fun bfinal _ _ => (reads_brBits 2).bind fun btype _ _ =>
    reads_pure (bfinal, btype)).congr fun r w => ?_
  constructor
  · rintro ⟨bfinal, _, _, rfl, ⟨btype, _, _, ⟨hlt, rfl⟩, ⟨rfl, rfl⟩, rfl⟩, rfl⟩
    exact ⟨hlt, by rw [append_nil]; rfl⟩
  · rintro ⟨hlt, rfl⟩
    exact ⟨r.1, _, _, rfl, ⟨r.2, _, [], ⟨hlt, rfl⟩, ⟨rfl, rfl⟩, rfl⟩, by rw [append_nil]; rfl⟩

theorem Block.type_lt (b : Block) : b.type < 4 := by
  cases b
  · exact Nat.zero_lt_succ 3
  · exact Nat.one_lt_succ_succ 2
  · exact Nat.lt_of_sub_eq_succ rfl

theorem Block.prefix_expand (h : b.expand out = some out') : out <+: out' := by
  cases b with
  | stored bytes =>
    cases h
    exact prefix_append out bytes
  | fixed tokens => exact prefix_foldlM Token.prefix_expand h
  | dynamic lit dist tokens => exact prefix_foldlM Token.prefix_expand h

theorem StreamBits.length_lt (h : StreamBits alt pos blocks w) : blocks.length < w.length := by
  induction blocks generalizing pos w with
  | nil => exact h.elim
  | cons b bs ih =>
    cases bs with
    | nil =>
      obtain ⟨w1, -, rfl⟩ := h
      simp
    | cons b' bs =>
      obtain ⟨w1, w2, -, hbs, rfl⟩ := h
      have hlt := ih hbs
      simp only [length_cons, length_append, length_lsbBits] at hlt ⊢
      omega

/-- Bits of which the first ones are whole bytes. -/
theorem exists_append_of_byteBits {bs cs : List Byte} (h : byteBits bs = byteBits cs ++ rest) :
    ∃ ds, bs = cs ++ ds ∧ byteBits ds = rest := by
  have hlen := congrArg List.length h
  rw [length_append, length_byteBits, length_byteBits] at hlen
  obtain ⟨ds, -, rfl⟩ := exists_byteBits (w := rest) (k := bs.length - cs.length) (by omega)
  rw [← byteBits_append] at h
  exact ⟨ds, byteBits_inj h, rfl⟩

section

variable (hpos : pos + br.bits.length = 8 * data.length) (hcap : out.length ≤ cap)

include hpos hcap

/-! ## Stored blocks -/

theorem storedBlock_fits {bytes : List Byte} (hbody : BodyBits true pos (.stored bytes) w)
    (hbr : br.bits = w ++ rest) : Fits cap (out ++ bytes) rest (some (storedBlock cap br out)) := by
  obtain ⟨pad, hpad, halign, hlen, rfl⟩ := hbody
  have hlt := br.bitCount_lt
  have hbits := length_bits br
  have hpadLen : pad.length = br.bitCount := by omega
  -- The bits after the padding are those of whole bytes.
  have hrest : byteBits (data.drop br.bytePos) =
      byteBits (leBytes 2 bytes.length ++ (leBytes 2 (65535 - bytes.length) ++ bytes)) ++ rest := by
    rw [BitReader.bits, append_assoc] at hbr
    obtain ⟨-, hbr'⟩ := append_inj hbr (by rw [length_lsbBits, hpadLen])
    rw [hbr', byteBits_append, byteBits_append, byteBits_leBytes, byteBits_leBytes]
  obtain ⟨tail, hdata, rfl⟩ := exists_append_of_byteBits hrest
  have hlen1 := length_leBytes 2 bytes.length
  have hlen2 := length_leBytes 2 (65535 - bytes.length)
  have hsize := congrArg List.length hdata
  simp only [length_append, length_drop, hlen1, hlen2] at hsize
  have htwo : data.drop (br.bytePos + 2) = leBytes 2 (65535 - bytes.length) ++ (bytes ++ tail) := by
    rw [← drop_drop, hdata, append_assoc, drop_left' hlen1, append_assoc]
  have hfour : data.drop (br.bytePos + 4) = bytes ++ tail := by
    rw [show br.bytePos + 4 = (br.bytePos + 2) + 2 from rfl, ← drop_drop, htwo, drop_left' hlen2]
  have hn : leNat ((data.drop br.bytePos).take 2) = bytes.length := by
    rw [hdata, append_assoc, take_left' hlen1, leNat_leBytes]
    omega
  have hnlen : leNat ((data.drop (br.bytePos + 2)).take 2) = 65535 - bytes.length := by
    rw [htwo, take_left' hlen2, leNat_leBytes]
    omega
  unfold storedBlock
  dsimp only
  rw [dif_neg (by omega)]
  simp only [hn, hnlen, ne_eq, not_true_eq_false, if_false]
  rw [dif_neg (by omega)]
  split_ifs with hfull
  · refine .full ?_ hcap (prefix_append out bytes)
    rw [length_append]
    omega
  refine ⟨fun _ => ⟨_, congrArg some (Prod.ext rfl (Prod.ext ?_ rfl)), ?_⟩, fun hlt => ?_⟩
  · rw [hfour, take_left]
  · show lsbBits 0 _ ++ byteBits (data.drop (br.bytePos + 4 + bytes.length)) = _
    rw [← drop_drop, hfour, drop_left]
    rfl
  · rw [length_append] at hlt
    omega

theorem storedBlock_decodes :
    Decodes cap br (fun out' w => ∃ bytes, BodyBits true pos (.stored bytes) w ∧
      out' = out ++ bytes) (some (storedBlock cap br out)) := by
  have hlt := br.bitCount_lt
  have hbits := length_bits br
  have htwo : ∀ k ≤ 2, 4 ≤ data.length - br.bytePos → 2 ≤ (data.drop (br.bytePos + k)).length := by
    intro k hk h
    rw [length_drop]
    omega
  unfold storedBlock
  dsimp only
  split_ifs with hshort hnlen hlong hfull
  · exact .fail hcap (by decide)
  · exact .fail hcap (by decide)
  · exact .fail hcap (by decide)
  · exact .fail hcap (by decide)
  rw [not_not] at hnlen
  obtain ⟨hn, hfirst⟩ := byteBits_two (htwo 0 (by decide) (by omega))
  obtain ⟨-, hsecond⟩ := byteBits_two (htwo 2 le_rfl (by omega))
  rw [Nat.add_zero] at hn hfirst
  rw [drop_drop] at hfirst hsecond
  rw [← hnlen] at hsecond
  refine ⟨_, _, _, rfl, ?_⟩
  change _ ∧ (_ → ∃ w, _ ∧ br.bits = w ++ (lsbBits 0 br.bitBuf ++
    byteBits (data.drop (br.bytePos + 4 + leNat ((data.drop br.bytePos).take 2)))))
  generalize leNat ((data.drop br.bytePos).take 2) = n at hn hfirst hsecond hlong hfull ⊢
  have hbytes : ((data.drop (br.bytePos + 4)).take n).length = n := by
    rw [length_take, length_drop]
    omega
  refine ⟨by rw [length_append, hbytes]; omega, fun _ =>
    ⟨_, ⟨_, ⟨lsbBits br.bitCount br.bitBuf, ?_, ?_, ?_, rfl⟩, rfl⟩, ?_⟩⟩
  · rwa [length_lsbBits]
  · rw [length_lsbBits]
    omega
  · rwa [hbytes]
  · rw [hbytes, BitReader.bits, hfirst, hsecond]
    rw [← drop_drop (i := n), lsbBits, nil_append]
    simp only [append_assoc]
    rw [← byteBits_append, take_append_drop]

/-! ## Blocks -/

theorem inflateBlock_fits (hbody : BodyBits true pos b w) (hexp : b.expand out = some out')
    (hbr : br.bits = w ++ rest) :
    Fits cap out' rest (inflateBlock cap b.type br out) := by
  have hlen := congrArg List.length hbr
  rw [length_append] at hlen
  cases b with
  | stored bytes =>
    cases hexp
    exact storedBlock_fits hpos hcap hbody hbr
  | fixed tokens =>
    obtain ⟨lit, dist, hlit, hdist, htrees⟩ := buildFixedTrees_spec
    have hfuel := TokensBits.length_lt hbody
    show Fits cap out' rest (inflateBlock cap 1 br out)
    rw [inflateBlock, if_neg (by decide), if_pos rfl, htrees]
    exact inflateBlockData_fits hlit hdist hbody hexp hcap hbr (by omega)
  | dynamic lit dist tokens =>
    obtain ⟨w1, w2, hd, hcodes, htokens, rfl⟩ := hbody
    have hend := hd.hasEnd.1
    obtain ⟨-, ⟨litTree, hlit⟩, distTree, hdist⟩ :=
      (dynamicCodes_iff (by omega) hd.lit_le hd.dist_pos hd.dist_le).1 hd
    rw [append_assoc] at hbr
    obtain ⟨br1, htrees, hbr1⟩ := reads_buildDynamicTrees.complete (a := (litTree, distTree))
      ⟨lit, dist, hd, hcodes, hlit, hdist⟩ hbr
    have hfuel := htokens.length_lt
    rw [length_append] at hlen
    show Fits cap out' rest (inflateBlock cap 2 br out)
    rw [inflateBlock, if_neg (by decide), if_neg (by decide), if_pos rfl, htrees]
    exact inflateBlockData_fits hlit hdist htokens hexp hcap hbr1 (by omega)

theorem inflateBlock_decodes (btype : ℕ) :
    Decodes cap br (fun out' w => ∃ b : Block, b.type = btype ∧ BodyBits true pos b w ∧
      b.expand out = some out') (inflateBlock cap btype br out) := by
  unfold inflateBlock
  split_ifs with hstored hfixed hdynamic
  · refine (storedBlock_decodes hpos hcap).after (w := []) rfl ?_
    rintro o w ⟨bytes, hbody, rfl⟩
    exact ⟨.stored bytes, hstored.symm, hbody, rfl⟩
  · obtain ⟨lit, dist, hlit, hdist, htrees⟩ := buildFixedTrees_spec
    rw [htrees]
    refine (inflateBlockData_decodes hlit hdist (by omega) hcap).after (w := []) rfl ?_
    rintro o w ⟨tokens, htokens, hexp⟩
    exact ⟨.fixed tokens, hfixed.symm, htokens, hexp⟩
  · cases htrees : buildDynamicTrees br with
    | none => exact .fail hcap (by decide)
    | some r =>
      obtain ⟨w1, ⟨lit, dist, hd, hcodes, hlit, hdist⟩, hbits⟩ :=
        reads_buildDynamicTrees.sound htrees
      have hlen := congrArg List.length hbits
      rw [length_append] at hlen
      refine (inflateBlockData_decodes hlit hdist (by omega) hcap).after hbits ?_
      rintro o w2 ⟨tokens, htokens, hexp⟩
      exact ⟨.dynamic lit dist tokens, hdynamic.symm, ⟨w1, w2, hd, hcodes, htokens, rfl⟩, hexp⟩
  · exact .fail hcap (by decide)

/-! ## The stream -/

/-- A round of `inflateBlocks` on a block that is in the format. -/
theorem inflateBlocks_succ {bfinal : Bool} {out1 : List Byte} {rest1 : List Bool}
    (hbody : BodyBits true (pos + 3) b w) (hexp : b.expand out = some out1)
    (hbr : br.bits = bfinal :: (lsbBits 2 b.type ++ (w ++ rest1))) (hpre : out1 <+: out')
    (hnext : ∀ br' : BitReader data, out1.length ≤ cap → br'.bits = rest1 → Fits cap out' rest
      (if bfinal then some (.ok, out1, br') else inflateBlocks cap fuel br' out1)) :
    Fits cap out' rest (inflateBlocks cap (fuel + 1) br out) := by
  obtain ⟨br1, hhead, hbr1⟩ := reads_readHeader.complete (a := (bfinal, b.type))
    ⟨b.type_lt, rfl⟩ hbr
  have hlen := congrArg List.length hbr
  rw [length_cons, length_append, length_lsbBits, ← hbr1] at hlen
  obtain ⟨hroom, hfull⟩ := inflateBlock_fits (by omega) hcap hbody hexp hbr1
  rw [inflateBlocks, hhead]
  dsimp only
  rcases le_or_gt out1.length cap with hle | hlt
  · obtain ⟨br', hrun, hbr'⟩ := hroom hle
    rw [hrun]
    exact hnext br' hle hbr'
  · obtain ⟨o, br', hrun, ho, hpre'⟩ := hfull hlt
    rw [hrun]
    exact .full (hlt.trans_le hpre.length_le) ho (hpre'.trans hpre)

theorem inflateBlocks_fits (hbits : StreamBits true pos blocks w)
    (hexp : blocks.foldlM Block.expand out = some out')
    (hbr : br.bits = w ++ rest) (hfuel : blocks.length < fuel) :
    Fits cap out' rest (inflateBlocks cap fuel br out) := by
  induction blocks generalizing fuel br out w pos with
  | nil => exact hbits.elim
  | cons b bs ih =>
    obtain ⟨fuel, rfl⟩ : ∃ n, fuel = n + 1 := ⟨fuel - 1, by omega⟩
    obtain ⟨out1, hone, hexp'⟩ := Option.bind_eq_some_iff.1 hexp
    have hpre := prefix_foldlM Block.prefix_expand hexp'
    cases bs with
    | nil =>
      obtain ⟨w1, hbody, rfl⟩ := hbits
      cases hexp'
      exact inflateBlocks_succ hpos hcap hbody hone hbr hpre fun br' hle hbr' =>
        ⟨fun _ => ⟨br', rfl, hbr'⟩, fun hlt => absurd hle (not_le.2 hlt)⟩
    | cons b' bs =>
      obtain ⟨w1, w2, hbody, hbs, rfl⟩ := hbits
      have hlen := congrArg List.length hbr
      rw [cons_append, append_assoc, append_assoc] at hbr
      refine inflateBlocks_succ hpos hcap hbody hone hbr hpre fun br' hle hbr' => ?_
      have hpos' : pos + 3 + w1.length + br'.bits.length = 8 * data.length := by
        rw [hbr', length_append]
        simp only [length_cons, length_append, length_lsbBits] at hlen
        omega
      exact ih hpos' hle hbs hexp' hbr' (Nat.lt_of_succ_lt_succ hfuel)

theorem inflateBlocks_decodes (hfuel : br.bits.length < fuel) :
    Decodes cap br (fun out' w => ∃ blocks, StreamBits true pos blocks w ∧
      blocks.foldlM Block.expand out = some out') (inflateBlocks cap fuel br out) := by
  induction fuel generalizing br out pos with
  | zero => omega
  | succ fuel ih =>
    rw [inflateBlocks]
    split
    · exact .fail hcap (by decide)
    next bfinal btype br1 hhead =>
      obtain ⟨w0, ⟨-, rfl⟩, hbits⟩ := reads_readHeader.sound hhead
      have hlen := congrArg List.length hbits
      rw [length_append, length_cons, length_lsbBits] at hlen
      have hpos1 : pos + 3 + br1.bits.length = 8 * data.length := by omega
      obtain ⟨st, o, br2, hblock, ho, hok⟩ := inflateBlock_decodes hpos1 hcap btype
      rw [hblock]
      show Decodes cap br _ (if st ≠ .ok then some (st, o, br2)
        else if bfinal then some (.ok, o, br2) else inflateBlocks cap fuel br2 o)
      split_ifs with hst hfinal
      · exact .fail ho hst
      · obtain ⟨w1, ⟨b, rfl, hbody, hexp⟩, hbits'⟩ := hok (not_not.1 hst)
        refine ⟨_, _, _, rfl, ho, fun _ => ⟨_, ⟨[b], ⟨w1, hbody, rfl⟩, ?_⟩, ?_⟩⟩
        · rw [foldlM_cons, hexp]
          rfl
        · rw [hbits, hbits', hfinal, cons_append, cons_append, append_assoc]
      · obtain ⟨w1, ⟨b, rfl, hbody, hexp⟩, hbits'⟩ := hok (not_not.1 hst)
        have hlen' := congrArg List.length hbits'
        rw [length_append] at hlen'
        have hpos2 : pos + 3 + w1.length + br2.bits.length = 8 * data.length := by omega
        rw [hbits', ← append_assoc] at hbits
        refine (ih hpos2 ho (by omega)).after hbits ?_
        rintro o' w2 ⟨_ | ⟨b', bs⟩, hbs, hexp'⟩
        · exact hbs.elim
        refine ⟨b :: b' :: bs, ⟨w1, w2, hbody, hbs, ?_⟩, ?_⟩
        · rw [Bool.eq_false_iff.2 hfinal, append_assoc, cons_append]
        · rw [foldlM_cons, hexp]
          exact hexp'

end

theorem length_bits_start (data : List Byte) :
    0 + (BitReader.start data).bits.length = 8 * data.length := by
  rw [length_bits, Nat.zero_add]
  exact Nat.zero_add _

/-- The bytes that have been read, in whole or in part. -/
theorem bytePos_eq (hbits : byteBits data = w ++ br.bits) : br.bytePos = (w.length + 7) / 8 := by
  have hlen := congrArg List.length hbits
  rw [length_append, length_byteBits, length_bits] at hlen
  have hle := br.bytePos_le
  have hlt := br.bitCount_lt
  omega

/-- A stream at the start of the input is expanded as far as there is room for the output. -/
theorem compressInflateRaw_fits (h : Expands alt data out pos) (cap : ℕ) :
    (out.length ≤ cap → compressInflateRaw data cap = some (.ok, out, pos)) ∧
      (cap < out.length → ∃ o, compressInflateRaw data cap = some (.errNoMemory, o, 0) ∧
        o.length ≤ cap ∧ o <+: out) := by
  obtain ⟨blocks, w, rest, hstream, hexp, hbits, rfl⟩ := h
  have hlen := congrArg List.length hbits
  rw [length_append, length_byteBits] at hlen
  have hfuel := hstream.length_lt
  obtain ⟨hroom, hfull⟩ := inflateBlocks_fits (length_bits_start data) (Nat.zero_le cap)
    hstream.mono hexp hbits (by omega : blocks.length < 8 * data.length + 1)
  rw [compressInflateRaw]
  refine ⟨fun hle => ?_, fun hlt => ?_⟩
  · obtain ⟨br', hrun, hrest⟩ := hroom hle
    rw [← hrest] at hbits
    rw [hrun, ← bytePos_eq hbits]
    rfl
  · obtain ⟨o, br', hrun, ho, hpre⟩ := hfull hlt
    rw [hrun]
    exact ⟨o, rfl, ho, hpre⟩

/-- A run returns, and its output is the expansion of a stream at the start of the input. -/
theorem compressInflateRaw_decodes (data : List Byte) (cap : ℕ) :
    ∃ st out used, compressInflateRaw data cap = some (st, out, used) ∧ out.length ≤ cap ∧
      (st = .ok → Expands true data out used) := by
  have hstart := length_bits_start data
  have hnil : ([] : List Byte).length ≤ cap := Nat.zero_le cap
  obtain ⟨st, out, br', hrun, hcap, hok⟩ :=
    inflateBlocks_decodes hstart hnil (by omega : _ < 8 * data.length + 1)
  refine ⟨st, out, if st = .ok then br'.bytePos else 0, by rw [compressInflateRaw, hrun]; rfl, hcap,
    fun hst => ?_⟩
  obtain ⟨w, ⟨blocks, hstream, hexp⟩, hbits⟩ := hok hst
  rw [if_pos hst]
  exact ⟨blocks, w, br'.bits, hstream, hexp, hbits, bytePos_eq hbits⟩

theorem compressInflateRaw_sound (h : compressInflateRaw data cap = some (.ok, out, pos)) :
    out.length ≤ cap ∧ Expands true data out pos := by
  obtain ⟨st, o, used, hrun, hcap, hok⟩ := compressInflateRaw_decodes data cap
  cases h.symm.trans hrun
  exact ⟨hcap, hok rfl⟩

/-- Inflate decodes exactly the format in which the length 258 may also be written as the code 284
with all extra bits set. -/
theorem compressInflateRaw_iff (data : List Byte) (cap : ℕ) (out : List Byte) (used : ℕ) :
    compressInflateRaw data cap = some (.ok, out, used) ↔
      Expands true data out used ∧ out.length ≤ cap := by
  constructor
  · intro hrun
    obtain ⟨hcap, hexp⟩ := compressInflateRaw_sound hrun
    exact ⟨hexp, hcap⟩
  · rintro ⟨hexp, hcap⟩
    exact (compressInflateRaw_fits hexp cap).1 hcap

/-- Bytes after a stream change nothing. -/
theorem Expands.append (h : Expands alt data out pos) (more : List Byte) :
    Expands alt (data ++ more) out pos := by
  obtain ⟨blocks, w, rest, hstream, hexp, hbits, hpos⟩ := h
  exact ⟨blocks, w, rest ++ byteBits more, hstream,
    hexp, by rw [byteBits_append, hbits, append_assoc], hpos⟩

/-- A stream is in the bytes that it counts. -/
theorem Expands.take (h : Expands alt data out pos) :
    pos ≤ data.length ∧ Expands alt (data.take pos) out pos := by
  obtain ⟨blocks, w, rest, hstream, hexp, hbits, rfl⟩ := h
  have hlen := congrArg length hbits
  rw [length_append, length_byteBits] at hlen
  have hfront : byteBits (data.take ((w.length + 7) / 8)) <+: byteBits data :=
    ⟨_, by rw [← byteBits_append, take_append_drop]⟩
  obtain ⟨rest', hrest⟩ := prefix_of_prefix_length_le ⟨rest, hbits.symm⟩ hfront
    (by rw [length_byteBits, length_take]; omega)
  exact ⟨by omega, blocks, w, rest', hstream, hexp, hrest.symm, rfl⟩

/-- Inflate returns for every capacity and never has more output than fits. What it accepts once, it
accepts with any bytes after it whenever the output fits, and else it returns the start of the
output. -/
theorem compressInflateRaw_stable (data : List Byte) :
    (∀ cap, ∃ st out used, compressInflateRaw data cap = some (st, out, used) ∧ out.length ≤ cap) ∧
      ∀ cap out used, compressInflateRaw data cap = some (.ok, out, used) → ∀ more cap',
        (out.length ≤ cap' → compressInflateRaw (data ++ more) cap' = some (.ok, out, used)) ∧
        (cap' < out.length → ∃ out', compressInflateRaw (data ++ more) cap' =
          some (.errNoMemory, out', 0) ∧ out'.length ≤ cap' ∧ out' <+: out) := by
  refine ⟨fun cap => ?_, fun cap out used h more cap' => ?_⟩
  · obtain ⟨st, out, used, hrun, hcap, -⟩ := compressInflateRaw_decodes data cap
    exact ⟨st, out, used, hrun, hcap⟩
  · exact compressInflateRaw_fits ((compressInflateRaw_sound h).2.append more) cap'

/-- **A stream ends itself.** The bytes that inflate reports as used decide its result, so that
anything may follow them, and no shorter front is accepted. -/
theorem compressInflateRaw_selfDelimiting (h : compressInflateRaw data cap = some (.ok, out, pos)) :
    (∀ data', data'.take pos = data.take pos →
      compressInflateRaw data' cap = some (.ok, out, pos)) ∧
    ∀ n < pos, ∀ cap' out' pos',
      compressInflateRaw (data.take n) cap' ≠ some (.ok, out', pos') := by
  obtain ⟨hcap, hexp⟩ := compressInflateRaw_sound h
  refine ⟨fun data' heq => ?_, fun n hn cap' out' pos' h' => ?_⟩
  · rw [← take_append_drop pos data', heq]
    exact (compressInflateRaw_fits (hexp.take.2.append _) cap).1 hcap
  · -- The front and the other bytes are the whole input, so both runs used as many bytes.
    have hexp' := (compressInflateRaw_sound h').2
    have hwhole := hexp'.append (data.drop n)
    rw [take_append_drop] at hwhole
    have hrun := (compressInflateRaw_fits hexp (max out.length out'.length)).1 (le_max_left _ _)
    cases hrun.symm.trans ((compressInflateRaw_fits hwhole _).1 (le_max_right _ _))
    have := hexp'.take.1.trans (length_take_le n data)
    omega

/-- A stored block of two bytes: two more bytes change nothing, and one byte less is refused. -/
theorem compressInflateRaw_selfDelimiting_stored :
    compressInflateRaw [1#8, 2#8, 0#8, 253#8, 255#8, 65#8, 66#8, 7#8, 8#8] 2 =
        some (.ok, [65#8, 66#8], 7) ∧
      ∀ cap out pos, compressInflateRaw [1#8, 2#8, 0#8, 253#8, 255#8, 65#8] cap ≠
        some (.ok, out, pos) := by
  obtain ⟨hmore, hless⟩ := compressInflateRaw_selfDelimiting (by decide +kernel :
    compressInflateRaw [1#8, 2#8, 0#8, 253#8, 255#8, 65#8, 66#8] 2 = some (.ok, [65#8, 66#8], 7))
  exact ⟨hmore _ rfl, hless 6 (by decide)⟩

/-- A fixed block with a zero byte and a copy of it, of which the length 258 is the code 284 with
all extra bits set. -/
def longLength : List Byte := [99#8, 24#8, 249#8, 0#8, 0#8]

theorem byteBits_longLength : byteBits longLength =
    true :: (lsbBits 2 1 ++ (codeword fixedLitLengths 0 ++ (codeword fixedLitLengths 284 ++
      (lsbBits 5 31 ++ (codeword fixedDistLengths 0 ++ (codeword fixedLitLengths 256 ++
        lsbBits 4 0)))))) := by
  decide +kernel

theorem codeBits_long : CodeBits fixedLitLengths 284 (codeword fixedLitLengths 284) :=
  ⟨by decide +kernel, rfl⟩

/-- The strict format has no token that starts with the code 284 and set extra bits. -/
theorem not_tokenBits_long (hbits : br.bits = codeword fixedLitLengths 284 ++
    (lsbBits 5 31 ++ rest)) {rest' : List Bool} (hbits' : br.bits = w ++ rest') :
    ¬ TokenBits false fixedLitLengths fixedDistLengths t w := by
  obtain ⟨litTree, distTree, hlit, -, -⟩ := buildFixedTrees_spec
  intro ht
  cases t with
  | lit b =>
    obtain ⟨hsym, -⟩ := (reads_huffDecode hlit).unique _ _ codeBits_long ht hbits hbits'
    omega
  | copy length distance =>
    obtain ⟨ls, le, ds, de, w1, w2, ⟨hls, hle, -, hstrict⟩, -, hcode, -, rfl⟩ := ht
    rw [append_assoc, append_assoc] at hbits'
    obtain ⟨hsym, hrest⟩ := (reads_huffDecode hlit).unique _ _ codeBits_long hcode hbits hbits'
    obtain rfl : ls = 27 := by omega
    -- The extra bits are all set, since the next five bits are.
    obtain ⟨hextra, -⟩ := append_inj hrest (by rw [length_lsbBits, length_lsbBits]; rfl)
    exact hstrict rfl ⟨rfl, (lsbBits_inj (by decide) hle hextra).symm⟩

/-- The strict format does not have the string, but it is decoded all the same. -/
theorem longLength_accepted :
    compressInflateRaw longLength 259 = some (.ok, List.replicate 259 0, 5) ∧
      ¬ ∃ out used, Expands false longLength out used := by
  have hlit : CodeBits fixedLitLengths 0 (codeword fixedLitLengths 0) := ⟨by decide +kernel, rfl⟩
  have hend : CodeBits fixedLitLengths 256 (codeword fixedLitLengths 256) :=
    ⟨by decide +kernel, rfl⟩
  have hback : CodeBits fixedDistLengths 0 (codeword fixedDistLengths 0) := ⟨by decide +kernel, rfl⟩
  have hcopy : TokenBits true fixedLitLengths fixedDistLengths (.copy 258 1)
      (codeword fixedLitLengths 284 ++ (lsbBits 5 31 ++ (codeword fixedDistLengths 0 ++ []))) :=
    ⟨27, 31, 0, 0, _, _, ⟨by decide, by decide, by decide, fun h => nomatch h⟩,
      ⟨by decide, by decide, by decide⟩, codeBits_long, hback, rfl⟩
  constructor
  · have hexp : Expands true longLength (List.replicate 259 0) 5 := by
      refine ⟨[.fixed [.lit 0, .copy 258 1]], _, lsbBits 4 0,
        ⟨_, ⟨_, _, hlit, ⟨_, _, hcopy, hend, rfl⟩, rfl⟩, rfl⟩, by decide +kernel, ?_,
        by decide +kernel⟩
      rw [byteBits_longLength]
      rfl
    exact (compressInflateRaw_fits hexp 259).1 (by decide +kernel)
  · rintro ⟨out, used, blocks, w, rest, hstream, -, hbits, -⟩
    obtain ⟨litTree, distTree, hlitTree, hdistTree, -⟩ := buildFixedTrees_spec
    have hstart : (BitReader.start longLength).bits = byteBits longLength := rfl
    obtain ⟨br₁, -, hbr₁⟩ := reads_readHeader.complete (a := (true, 1)) ⟨by decide, rfl⟩
      (hstart.trans byteBits_longLength)
    obtain ⟨br₂, -, hbr₂⟩ :=
      (reads_readToken hlitTree hdistTree).complete (a := some (.lit 0)) hlit hbr₁
    -- The header is that of a final fixed block.
    obtain ⟨tokens, w, htokens, hbits₁⟩ : ∃ tokens w,
        TokensBits false fixedLitLengths fixedDistLengths tokens w ∧ br₁.bits = w ++ rest := by
      match blocks, hstream with
      | [b], ⟨w₁, hbody, hw⟩ =>
        rw [hw, cons_append, append_assoc] at hbits
        obtain ⟨htype, hrest⟩ := reads_readHeader.unique (true, 1) (true, b.type)
          ⟨by decide, rfl⟩ ⟨b.type_lt, rfl⟩ (hstart.trans byteBits_longLength) (hstart.trans hbits)
        cases b with
        | fixed tokens => exact ⟨tokens, w₁, hbody, hbr₁.trans hrest⟩
        | stored bytes => exact absurd htype (by simp [Block.type])
        | dynamic lit dist tokens => exact absurd htype (by simp [Block.type])
      | b :: b' :: bs, ⟨w₁, w₂, _, _, hw⟩ =>
        rw [hw, byteBits_longLength] at hbits
        exact absurd (List.cons.inj hbits).1 (by decide)
    cases tokens with
    | nil =>
      obtain ⟨hno, -⟩ := (reads_readToken hlitTree hdistTree).unique (some (.lit 0)) none
        hlit htokens hbr₁ hbits₁
      cases hno
    | cons t ts =>
      obtain ⟨w₁, w₂, ht, hts, rfl⟩ := htokens
      rw [append_assoc] at hbits₁
      obtain ⟨-, hrest⟩ := (reads_readToken hlitTree hdistTree).unique (some (.lit 0)) (some t)
        hlit ht.mono hbr₁ hbits₁
      cases ts with
      | nil =>
        obtain ⟨hno, -⟩ :=
          (reads_huffDecode hlitTree).unique _ _ codeBits_long hts hbr₂ (hbr₂.trans hrest)
        cases hno
      | cons t' ts =>
        obtain ⟨w₃, w₄, ht', -, rfl⟩ := hts
        rw [append_assoc] at hrest
        exact not_tokenBits_long hbr₂ (hbr₂.trans hrest) ht'

end Bongos.Compress
