import Bongos.Compress.Rfc1951

/-!
# The Huffman decoder

The reader's bits are those that are left of its byte and those of the bytes after it
(`BitReader.bits`). A table of `huffBuild` holds the symbols by length and rank, and `huffDecode`
reads exactly the canonical code of the lengths (`reads_huffDecode`).
-/

namespace Bongos.Compress

open Function (update update_apply)
open List

variable {data : List Byte} {br br' : BitReader data} {lens : List ℕ} {h : HuffTree} {n l i : ℕ}

/-! ## Reading bits -/

/-- The bits that are still to be read. -/
def BitReader.bits (br : BitReader data) : List Bool :=
  lsbBits br.bitCount br.bitBuf ++ byteBits (data.drop br.bytePos)

theorem length_bits (br : BitReader data) :
    br.bits.length = br.bitCount + 8 * (data.length - br.bytePos) := by
  rw [BitReader.bits, length_append, length_lsbBits, length_byteBits, length_drop]

/-- `brBit` takes the next bit. -/
theorem reads_brBit : Reads BitReader.bits (brBit : BitM data Bool) fun b w => w = [b] := by
  -- What `brBit` does, by the bits: it takes the first one, or fails if there is none.
  have hnext : ∀ br : BitReader data, (brBit br = none ∧ br.bits = []) ∨
      ∃ b br', brBit br = some (b, br') ∧ br.bits = b :: br'.bits := by
    intro br
    unfold brBit
    split_ifs with hcount hpos
    · refine .inr ⟨_, _, rfl, ?_⟩
      rw [BitReader.bits, hcount, drop_eq_getElem_cons hpos, byteBits_cons]
      rfl
    · refine .inl ⟨rfl, ?_⟩
      rw [BitReader.bits, hcount, drop_eq_nil_of_le (by omega)]
      rfl
    · have hbuf : lsbBits br.bitCount br.bitBuf =
          br.bitBuf.testBit 0 :: lsbBits (br.bitCount - 1) (br.bitBuf / 2) := by
        obtain ⟨k, hk⟩ := Nat.exists_eq_succ_of_ne_zero hcount
        rw [hk]
        rfl
      refine .inr ⟨_, _, rfl, ?_⟩
      rw [BitReader.bits, hbuf]
      rfl
  constructor
  · rintro br b _ rest rfl hbits
    rcases hnext br with ⟨_, hnil⟩ | ⟨b', br', hrun, hcons⟩
    · rw [hnil] at hbits
      exact absurd hbits (by simp)
    · rw [hcons] at hbits
      obtain ⟨rfl, rfl⟩ := List.cons.inj hbits
      exact ⟨br', hrun, rfl⟩
  · intro br b br' hrun
    rcases hnext br with ⟨hnone, _⟩ | ⟨b', br1, hsome, hcons⟩
    · rw [hnone] at hrun
      cases hrun
    · rw [hsome] at hrun
      cases hrun
      exact ⟨[b], rfl, hcons⟩

theorem or_shiftLeft {v : ℕ} (b : Bool) (hv : v < 2^i) :
    v ||| (b.toNat <<< i) = v + b.toNat * 2^i := by
  rw [Nat.or_comm, ← Nat.shiftLeft_add_eq_or_of_lt hv, Nat.shiftLeft_eq, Nat.add_comm]

theorem reads_brBitsFrom (i v n : ℕ) (hv : v < 2^i) :
    Reads BitReader.bits (brBitsFrom i v n : BitM data ℕ) fun a w =>
      ∃ u < 2^n, a = v + u * 2^i ∧ w = lsbBits n u := by
  induction n generalizing i v with
  | zero =>
    refine (reads_pure v).congr fun a w => ?_
    constructor
    · rintro ⟨rfl, rfl⟩
      exact ⟨0, by simp, by simp, rfl⟩
    · rintro ⟨u, hu, rfl, rfl⟩
      rw [pow_zero, Nat.lt_one_iff] at hu
      exact ⟨by simp [hu], rfl⟩
  | succ n ih =>
    have hnew : ∀ b : Bool, v ||| (b.toNat <<< i) < 2^(i + 1) := by
      intro b
      rw [or_shiftLeft b hv, pow_succ]
      cases b <;> simp <;> omega
    refine (reads_brBit.bind fun b _ _ => ih (i + 1) _ (hnew b)).congr fun a w => ?_
    constructor
    · rintro ⟨b, _, _, rfl, ⟨u, hu, rfl, rfl⟩, rfl⟩
      refine ⟨b.toNat + 2 * u, ?_, ?_, ?_⟩
      · have hb := Bool.toNat_lt b
        omega
      · rw [or_shiftLeft b hv, pow_succ]
        ring
      · rw [lsbBits_succ_eq b rfl]
        rfl
    · rintro ⟨u, hu, rfl, rfl⟩
      refine ⟨u.testBit 0, _, _, rfl, ⟨u / 2, by omega, ?_, rfl⟩, rfl⟩
      have hsplit : u = u % 2 + 2 * (u / 2) := by omega
      rw [or_shiftLeft _ hv, testBit_zero_toNat, pow_succ]
      nth_rewrite 1 [hsplit]
      ring

/-- `brBits` reads a number, the lowest bit first. -/
theorem reads_brBits (n : ℕ) : Reads BitReader.bits (brBits n : BitM data ℕ) fun v w =>
    v < 2^n ∧ w = lsbBits n v := by
  refine (reads_brBitsFrom 0 0 n (by simp)).congr fun a w => ?_
  constructor
  · rintro ⟨u, hu, rfl, rfl⟩
    simpa using hu
  · rintro ⟨hv, rfl⟩
    exact ⟨a, hv, by simp, rfl⟩

/-! ## The tables -/

theorem foldl_update_count (f : ℕ → ℕ) :
    lens.foldl (fun c l => update c l (c l + 1)) f l = f l + lens.count l := by
  induction lens generalizing f with
  | nil => rfl
  | cons a lens ih =>
    rw [foldl_cons, ih, update_apply, count_cons]
    by_cases hal : l = a
    · subst hal
      simp
      omega
    · simp [hal, Ne.symm hal]

theorem huffCounts_eq : huffCounts lens = codeCount lens := by
  funext l
  rw [huffCounts, codeCount, update_apply, foldl_update_count, Nat.zero_add]

theorem huffOffs_eq (l : ℕ) : huffOffs (codeCount lens) l = firstIndex lens l := by
  induction l with
  | zero => rfl
  | succ l ih =>
    cases l with
    | zero => rfl
    | succ l => rw [huffOffs, ih, firstIndex_succ lens (l + 1)]

/-- The places of two symbols differ. -/
theorem firstIndex_rank_inj {l' r r' : ℕ} (hr : r < codeCount lens l) (hr' : r' < codeCount lens l')
    (h : firstIndex lens l + r = firstIndex lens l' + r') : l = l' ∧ r = r' := by
  have hmono : ∀ {a b : ℕ}, a < b → firstIndex lens a + codeCount lens a ≤ firstIndex lens b := by
    intro a b hab
    rw [← firstIndex_succ]
    exact firstIndex_mono lens hab
  rcases Nat.lt_trichotomy l l' with hlt | rfl | hlt
  · have := hmono hlt
    omega
  · omega
  · have := hmono hlt
    omega

/-- The symbols that were entered stand at their places. -/
theorem huffSymbols_spec : ∀ i, HasCode lens i →
      (huffSymbols lens (firstIndex lens)).2 (firstIndex lens (lens.getD i 0) + codeRank lens i) =
        i := by
  -- The loop variable counts the symbols entered; `offs` is moved by those of each length.
  have hloop : ∀ k ≤ lens.length,
      let s := (List.range k).foldl (fun (s : (ℕ → ℕ) × (ℕ → ℕ)) i =>
        let l := lens.getD i 0
        if l ≠ 0 then (update s.1 l (s.1 l + 1), update s.2 (s.1 l) i) else s)
        (firstIndex lens, fun _ => 0)
      (∀ l, l ≠ 0 → s.1 l = firstIndex lens l + (lens.take k).count l) ∧
        ∀ i < k, HasCode lens i → s.2 (firstIndex lens (lens.getD i 0) + codeRank lens i) = i := by
    intro k hk
    induction k with
    | zero => exact ⟨fun l _ => by simp, fun i hi => absurd hi (Nat.not_lt_zero i)⟩
    | succ k ih =>
      obtain ⟨hoffs, hsyms⟩ := ih (by omega)
      rw [range_succ, foldl_append, foldl_cons, foldl_nil]
      generalize (List.range k).foldl _ _ = s at hoffs hsyms
      have htake : lens.take (k + 1) = lens.take k ++ [lens.getD k 0] := by
        rw [getD_eq_getElem _ _ hk, take_append_getElem]
      dsimp only
      split_ifs with hl
      · have hcode : HasCode lens k := ⟨hk, hl⟩
        have hplace : s.1 (lens.getD k 0) = firstIndex lens (lens.getD k 0) + codeRank lens k :=
          hoffs _ hl
        refine ⟨fun l hl' => ?_, fun i hi hcode' => ?_⟩
        · dsimp only
          rw [update_apply, htake, count_append]
          split_ifs with heq
          · rw [heq, hplace, codeRank, count_singleton_self, Nat.add_assoc]
          · rw [hoffs l hl', count_singleton, if_neg (by simpa using Ne.symm heq), Nat.add_zero]
        · dsimp only
          rw [update_apply, hplace]
          split_ifs with heq
          · obtain ⟨hlen, hrank⟩ := firstIndex_rank_inj hcode'.codeRank_lt hcode.codeRank_lt heq
            exact (hcode'.eq_of_rank hcode hlen hrank).symm
          · refine hsyms i (Nat.lt_of_le_of_ne (Nat.le_of_lt_succ hi) fun hik => heq ?_) hcode'
            rw [hik]
      · refine ⟨fun l hl' => ?_, fun i hi hcode' => hsyms i ?_ hcode'⟩
        · rw [hoffs l hl', htake, count_append, count_singleton,
            if_neg (by rw [not_not.1 hl]; simpa using Ne.symm hl'), Nat.add_zero]
        · refine Nat.lt_of_le_of_ne (Nat.le_of_lt_succ hi) fun hik => hl ?_
          exact absurd (hik ▸ hcode'.2) hl
  exact fun i hi => (hloop lens.length le_rfl).2 i hi.1 hi

variable {isCodeLengths : Bool}

/-- What a table of `huffBuild` holds. -/
theorem huffBuild_table (hb : huffBuild lens isCodeLengths = some h) :
    h.counts = codeCount lens ∧ ∀ i, HasCode lens i →
      h.symbols (firstIndex lens (lens.getD i 0) + codeRank lens i) = i := by
  have htree : h = ⟨huffCounts lens, (huffSymbols lens (huffOffs (huffCounts lens))).2⟩ := by
    unfold huffBuild at hb
    split_ifs at hb with hlen hshort
    dsimp only at hb
    split_ifs at hb with hmax
    · split at hb
      · cases hb
      · split_ifs at hb
        exact (Option.some.inj hb).symm
    · exact (Option.some.inj hb).symm
  rw [htree, huffCounts_eq, funext huffOffs_eq]
  exact ⟨rfl, huffSymbols_spec⟩

/-! ## Which lengths are accepted -/

theorem huffLeft_loop (k : ℕ) : (List.range k).foldlM (m := Option) (fun (left : ℤ) k =>
        let left : ℤ := left * 2 - codeCount lens (k + 1)
        if left < 0 then none else some left) 1 =
      if firstCode lens k + codeCount lens k ≤ 2^k then
        some ((2 : ℤ)^k - (firstCode lens k + codeCount lens k : ℕ))
      else none := by
  induction k with
  | zero => rfl
  | succ k ih =>
    have hpow : (2 : ℤ)^(k + 1) = 2 * 2^k := by rw [pow_succ, mul_comm]
    have hpow' : 2^(k + 1) = 2 * 2^k := by rw [pow_succ, mul_comm]
    have hcast : ((2^k : ℕ) : ℤ) = (2 : ℤ)^k := by push_cast; rfl
    rw [range_succ, foldlM_append, ih, firstCode_succ, hpow, hpow', ← hcast]
    simp only [foldlM_cons, foldlM_nil, bind_pure]
    generalize 2^k = p
    generalize firstCode lens k + codeCount lens k = room
    generalize codeCount lens (k + 1) = c
    split_ifs with hk hk' hk'
    · show (if ((p : ℤ) - room) * 2 - c < 0 then none else some (((p : ℤ) - room) * 2 - c)) = _
      rw [if_neg (by omega)]
      push_cast
      ring_nf
    · show (if ((p : ℤ) - room) * 2 - c < 0 then none else some (((p : ℤ) - room) * 2 - c)) = _
      rw [if_pos (by omega)]
    · omega
    · rfl

/-- The longest length has a symbol, unless it is 0, and the longer ones have none. -/
theorem huffMaxLen_spec (c : ℕ → ℕ) : huffMaxLen c ≤ 15 ∧
    (∀ l, huffMaxLen c < l → l ≤ 15 → c l = 0) ∧ (huffMaxLen c ≠ 0 → c (huffMaxLen c) ≠ 0) := by
  unfold huffMaxLen
  cases hfind : ((List.range HUFF_MAX_BITS).map (HUFF_MAX_BITS - ·)).find? fun len => c len ≠ 0 with
  | none =>
    rw [find?_eq_none] at hfind
    refine ⟨Nat.zero_le _, fun l hl hl' => ?_, fun hne => absurd rfl hne⟩
    have hno := hfind l (mem_map.2 ⟨15 - l, by simp [HUFF_MAX_BITS]; omega, by
      simp [HUFF_MAX_BITS]; omega⟩)
    simpa using hno
  | some m =>
    obtain ⟨hm, i, hi, him, hbefore⟩ := find?_eq_some_iff_getElem.1 hfind
    rw [getElem_map, getElem_range] at him
    have him' : 15 - i = m := him
    refine ⟨?_, fun l hl hl' => ?_, fun _ => by simpa using hm⟩
    · rw [Option.getD_some]
      omega
    · rw [Option.getD_some] at hl
      have hno := hbefore (15 - l) (by omega)
      simpa [HUFF_MAX_BITS, Nat.sub_sub_self hl'] using hno

theorem codeCount_eq_zero (hl : l ≠ 0) : codeCount lens l = 0 ↔ l ∉ lens := by
  rw [codeCount, if_neg hl, count_eq_zero]

theorem huffMaxLen_eq_zero (hshort : ∀ l ∈ lens, l ≤ 15) :
    huffMaxLen (codeCount lens) = 0 ↔ ∀ l ∈ lens, l = 0 := by
  obtain ⟨-, hlonger, hhas⟩ := huffMaxLen_spec (codeCount lens)
  constructor
  · intro hzero l hl
    by_contra hne
    have hcount := hlonger l (by omega) (hshort l hl)
    exact (codeCount_eq_zero hne).1 hcount hl
  · intro hall
    by_contra hne
    refine hhas hne ((codeCount_eq_zero hne).2 fun hmem => hne (hall _ hmem))

theorem huffMaxLen_eq_one (hshort : ∀ l ∈ lens, l ≤ 15) :
    huffMaxLen (codeCount lens) = 1 ↔ 1 ∈ lens ∧ ∀ l ∈ lens, l = 0 ∨ l = 1 := by
  obtain ⟨-, hlonger, hhas⟩ := huffMaxLen_spec (codeCount lens)
  constructor
  · intro hone
    rw [hone] at hhas hlonger
    refine ⟨?_, fun l hl => ?_⟩
    · have hcount := hhas Nat.one_ne_zero
      rwa [Ne, codeCount_eq_zero Nat.one_ne_zero, not_not] at hcount
    · by_contra hne
      have hcount := hlonger l (by omega) (hshort l hl)
      exact (codeCount_eq_zero (by omega)).1 hcount hl
  · rintro ⟨hone, hall⟩
    have hpos : huffMaxLen (codeCount lens) ≠ 0 := fun hzero =>
      absurd ((huffMaxLen_eq_zero hshort).1 hzero 1 hone) Nat.one_ne_zero
    have hmem : huffMaxLen (codeCount lens) ∈ lens := by
      have hcount := hhas hpos
      rwa [Ne, codeCount_eq_zero hpos, not_not] at hcount
    exact (hall _ hmem).resolve_left hpos

/-- The room that a code of words of one bit takes. -/
theorem room_of_short (h : ∀ l ∈ lens, l = 0 ∨ l = 1) (k : ℕ) :
    firstCode lens (k + 1) + codeCount lens (k + 1) = 2^k * lens.count 1 := by
  induction k with
  | zero => simp [firstCode, codeCount]
  | succ k ih =>
    have hnone : codeCount lens (k + 1 + 1) = 0 :=
      (codeCount_eq_zero (by omega)).2 fun hmem => by
        have := h _ hmem
        omega
    rw [firstCode_succ, ih, hnone, pow_succ]
    ring

/-- The lengths that `huffBuild` accepts. -/
theorem huffBuild_isSome_iff :
    (∃ h, huffBuild lens isCodeLengths = some h) ↔ lens.length ≤ 288 ∧ (∀ l ∈ lens, l ≤ 15) ∧
      ((∀ l ∈ lens, l = 0) ∨ Complete lens 15 ∨ (isCodeLengths = false ∧ Single lens)) := by
  unfold huffBuild
  by_cases hlen : lens.length > HUFF_MAX_SYMS
  · rw [if_pos hlen]
    exact ⟨fun ⟨h, hh⟩ => (nomatch hh), fun hh => absurd hh.1 (Nat.not_le.2 hlen)⟩
  rw [if_neg hlen]
  by_cases hlong : ∃ l ∈ lens, l > HUFF_MAX_BITS
  · rw [if_pos hlong]
    obtain ⟨l, hl, hl'⟩ := hlong
    exact ⟨fun ⟨h, hh⟩ => (nomatch hh), fun hh => absurd (hh.2.1 l hl) (Nat.not_le.2 hl')⟩
  rw [if_neg hlong]
  have hshort : ∀ l ∈ lens, l ≤ 15 := fun l hl => Nat.not_lt.1 fun h => hlong ⟨l, hl, h⟩
  have hlen' : lens.length ≤ 288 := Nat.not_lt.1 hlen
  simp only [huffCounts_eq, hlen', true_and, and_iff_right hshort]
  by_cases hzero : huffMaxLen (codeCount lens) = 0
  · rw [if_neg (not_not.2 hzero)]
    exact ⟨fun _ => .inl ((huffMaxLen_eq_zero hshort).1 hzero), fun _ => ⟨_, rfl⟩⟩
  rw [if_pos hzero, huffLeft, HUFF_MAX_BITS, huffLeft_loop]
  have hnz : ¬ ∀ l ∈ lens, l = 0 := fun h => hzero ((huffMaxLen_eq_zero hshort).2 h)
  rw [complete_iff hshort]
  have hsingle : Single lens ↔ huffMaxLen (codeCount lens) = 1 ∧
      firstCode lens 15 + codeCount lens 15 < 2^15 := by
    rw [huffMaxLen_eq_one hshort]
    constructor
    · rintro ⟨hcount, hall⟩
      refine ⟨⟨count_pos_iff.1 (by omega), hall⟩, ?_⟩
      rw [room_of_short hall 14, hcount]
      decide
    · rintro ⟨⟨hone, hall⟩, hroom⟩
      rw [room_of_short hall 14] at hroom
      have hpos := count_pos_iff.2 hone
      exact ⟨by omega, hall⟩
  rw [hsingle]
  generalize firstCode lens 15 + codeCount lens 15 = room
  split_ifs with hroom
  · dsimp only
    split_ifs with hbad
    · constructor
      · rintro ⟨h, hh⟩
        cases hh
      · rintro (hall | hfull | ⟨hflag, hmax, hlt⟩)
        · exact absurd hall hnz
        · omega
        · rcases hbad.2 with hcl | hne
          · rw [hflag] at hcl
            cases hcl
          · exact absurd hmax hne
    · refine ⟨fun _ => .inr ?_, fun _ => ⟨_, rfl⟩⟩
      rw [not_and_or, not_or, not_not] at hbad
      rcases hbad with hleft | ⟨hflag, hmax⟩
      · exact .inl (by omega)
      · rcases Nat.lt_or_ge room (2^15) with hlt | hge
        · exact .inr ⟨by simpa using hflag, hmax, hlt⟩
        · exact .inl (by omega)
  · refine ⟨fun ⟨h, hh⟩ => (nomatch hh), ?_⟩
    rintro (hall | hfull | ⟨hflag, hmax, hlt⟩)
    · exact absurd hall hnz
    · omega
    · omega

/-! ## Decoding -/

theorem two_mul_or (c : ℕ) (b : Bool) : (c * 2) ||| b.toNat = b.toNat + 2 * c := by
  have hb : b.toNat < 2^1 := by simpa using Bool.toNat_lt b
  rw [show c * 2 = c <<< 1 by rw [Nat.shiftLeft_eq, pow_one], ← Nat.shiftLeft_add_eq_or_of_lt hb,
    Nat.shiftLeft_eq, pow_one]
  omega

/-- The symbols of which the codeword starts with the bits `c` and has more than `len` of them, with
the rest of the codeword. -/
def CodeRest (lens : List ℕ) (len c sym : ℕ) (w : List Bool) : Prop :=
  HasCode lens sym ∧ ∃ k, lens.getD sym 0 = len + (k + 1) ∧ codeOf lens sym / 2^(k + 1) = c ∧
    w = msbBits (k + 1) (codeOf lens sym)

/-- One more bit is the last one of a codeword, or one of more to come. -/
theorem codeRest_iff {len c sym : ℕ} {w : List Bool} : CodeRest lens len c sym w ↔
    ∃ (b : Bool) (w' : List Bool), w = b :: w' ∧
      ((HasCode lens sym ∧ lens.getD sym 0 = len + 1 ∧ codeOf lens sym = b.toNat + 2 * c ∧
        w' = []) ∨ CodeRest lens (len + 1) (b.toNat + 2 * c) sym w') := by
  constructor
  · rintro ⟨hcode, k, hlen, hdiv, rfl⟩
    refine ⟨_, _, rfl, ?_⟩
    have hbit := div_two_pow_testBit (codeOf lens sym) k
    rw [hdiv] at hbit
    cases k with
    | zero =>
      rw [pow_zero, Nat.div_one] at hbit
      exact .inl ⟨hcode, hlen, hbit, rfl⟩
    | succ k => exact .inr ⟨hcode, k, by omega, hbit, rfl⟩
  · rintro ⟨b, w', rfl, ⟨hcode, hlen, hof, rfl⟩ | ⟨hcode, k, hlen, hdiv, rfl⟩⟩
    · rw [← Nat.div_one (codeOf lens sym), ← pow_zero 2] at hof
      obtain ⟨hbit, hdiv⟩ := testBit_eq_of_div hof
      refine ⟨hcode, 0, hlen, hdiv, ?_⟩
      rw [← hbit]
      rfl
    · obtain ⟨hbit, hdiv'⟩ := testBit_eq_of_div hdiv
      refine ⟨hcode, k + 1, by omega, hdiv', ?_⟩
      rw [← hbit]
      rfl

/-- The loop of `huffDecode` reads the rest of a codeword. Before the length `len + 1`, the bits
read so far are past the codewords of their length, and the numbers are those of the canonical
code. -/
theorem reads_huffDecodeFrom (hcounts : h.counts = codeCount lens) (hsyms : ∀ i, HasCode lens i →
      h.symbols (firstIndex lens (lens.getD i 0) + codeRank lens i) = i)
    (hshort : ∀ l ∈ lens, l ≤ 15) {n len c : ℕ} (hn : n + len = 15)
    (hc : firstCode lens len + codeCount lens len ≤ c) :
    Reads BitReader.bits (huffDecodeFrom h n (len + 1) (c * 2) (firstCode lens (len + 1))
      (firstIndex lens (len + 1)) : BitM data ℕ) (CodeRest lens len c) := by
  induction n generalizing len c with
  | zero =>
    refine reads_failure.congr fun sym w => ⟨False.elim, ?_⟩
    rintro ⟨hcode, k, hlen, -⟩
    have hmem : lens.getD sym 0 ∈ lens := by
      rw [getD_eq_getElem _ _ hcode.1]
      exact getElem_mem _
    have := hshort _ hmem
    omega
  | succ n ih =>
    have hfirst : firstCode lens (len + 1) = 2 * (firstCode lens len + codeCount lens len) := rfl
    -- The language of a round: a bit, and then a symbol of this length or a longer one.
    have hround : ∀ b : Bool, Reads BitReader.bits
        (if ((c * 2 ||| b.toNat : ℕ) : ℤ) - firstCode lens (len + 1) < h.counts (len + 1) then
          return h.symbols
            (firstIndex lens (len + 1) + ((c * 2 ||| b.toNat) - firstCode lens (len + 1)))
        else huffDecodeFrom h n (len + 1 + 1) ((c * 2 ||| b.toNat) * 2)
          ((firstCode lens (len + 1) + h.counts (len + 1)) * 2)
          (firstIndex lens (len + 1) + h.counts (len + 1)) : BitM data ℕ)
        fun sym w' =>
          (HasCode lens sym ∧ lens.getD sym 0 = len + 1 ∧ codeOf lens sym = b.toNat + 2 * c ∧
            w' = []) ∨ CodeRest lens (len + 1) (b.toNat + 2 * c) sym w' := by
      intro b
      rw [two_mul_or, hcounts]
      by_cases hin : ((b.toNat + 2 * c : ℕ) : ℤ) - firstCode lens (len + 1) <
        codeCount lens (len + 1)
      · rw [if_pos hin]
        obtain ⟨sym, hcode, hlen, hrank⟩ : ∃ sym, HasCode lens sym ∧ lens.getD sym 0 = len + 1 ∧
            codeRank lens sym = b.toNat + 2 * c - firstCode lens (len + 1) :=
          exists_codeRank (Nat.succ_ne_zero len) (by omega)
        have hsym := hsyms sym hcode
        rw [hlen, hrank] at hsym
        have hof : codeOf lens sym = b.toNat + 2 * c := by
          rw [codeOf, hlen, hrank]
          omega
        refine (reads_pure _).congr fun sym' w' => ?_
        rw [hsym]
        constructor
        · rintro ⟨rfl, rfl⟩
          exact .inl ⟨hcode, hlen, hof, rfl⟩
        · rintro (⟨hcode', hlen', hof', rfl⟩ | ⟨-, k, hlen', hdiv, -⟩)
          · refine ⟨hcode'.eq_of_rank hcode (hlen'.trans hlen.symm) ?_, rfl⟩
            rw [codeOf, hlen'] at hof'
            omega
          · -- A longer codeword does not start with one of this length.
            have hpast : firstCode lens (len + 1) + codeCount lens (len + 1) ≤
                codeOf lens sym' / 2^(lens.getD sym' 0 - (len + 1)) :=
              firstCode_le_codeOf_div (by omega)
            rw [hlen', Nat.add_sub_cancel_left, hdiv] at hpast
            omega
      · rw [if_neg hin]
        have hnext : firstCode lens (len + 1) + codeCount lens (len + 1) ≤ b.toNat + 2 * c := by
          omega
        have hread := ih (by omega) hnext
        rw [firstCode_succ lens (len + 1), mul_comm 2 (firstCode _ _ + _),
          firstIndex_succ lens (len + 1)] at hread
        refine hread.congr fun sym w' => ⟨.inr, ?_⟩
        rintro (⟨hcode, hlen, hof, -⟩ | hrest)
        · have hrank := hcode.codeRank_lt
          rw [codeOf, hlen] at hof
          rw [hlen] at hrank
          omega
        · exact hrest
    refine (reads_brBit.bind fun b _ _ => hround b).congr fun sym w => ?_
    rw [codeRest_iff]
    constructor
    · rintro ⟨b, _, w', rfl, hsym, rfl⟩
      exact ⟨b, w', rfl, hsym⟩
    · rintro ⟨b, w', rfl, hsym⟩
      exact ⟨b, [b], w', rfl, hsym, rfl⟩

/-- A code that was accepted is not over-subscribed. -/
theorem huffBuild_notOver (hb : huffBuild lens isCodeLengths = some h) : NotOver lens 15 := by
  obtain ⟨-, hshort, hzero | hfull | ⟨-, hsingle⟩⟩ := huffBuild_isSome_iff.1 ⟨h, hb⟩
  · refine notOver_of_le ?_
    rw [room_of_short (fun l hl => .inl (hzero l hl)) 14,
      count_eq_zero.2 fun hmem => absurd (hzero 1 hmem) Nat.one_ne_zero]
    decide
  · exact notOver_of_le ((complete_iff hshort).1 hfull).le
  · refine notOver_of_le ?_
    rw [room_of_short hsingle.2 14, hsingle.1]
    decide

/-- `huffDecode` reads exactly the codewords of the lengths. -/
theorem reads_huffDecode (hb : huffBuild lens isCodeLengths = some h) :
    Reads BitReader.bits (huffDecode h : BitM data ℕ) (CodeBits lens) := by
  obtain ⟨hcounts, hsyms⟩ := huffBuild_table hb
  have hshort := (huffBuild_isSome_iff.1 ⟨h, hb⟩).2.1
  have hread : Reads BitReader.bits (huffDecode h : BitM data ℕ) (CodeRest lens 0 0) :=
    reads_huffDecodeFrom (c := 0) hcounts hsyms hshort rfl le_rfl
  refine hread.congr fun sym w => ?_
  constructor
  · rintro ⟨hcode, k, hlen, -, rfl⟩
    exact ⟨hcode, by rw [codeword, hlen, Nat.zero_add]⟩
  · rintro ⟨hcode, rfl⟩
    obtain ⟨k, hk⟩ := Nat.exists_eq_succ_of_ne_zero hcode.2
    have hmem : lens.getD sym 0 ∈ lens := by
      rw [getD_eq_getElem _ _ hcode.1]
      exact getElem_mem _
    have hlt := hcode.codeOf_lt (hshort _ hmem) (huffBuild_notOver hb)
    rw [hk] at hlt
    exact ⟨hcode, k, by omega, Nat.div_eq_of_lt hlt, by rw [codeword, hk]⟩

end Bongos.Compress
