import Bongos.Core.KsymTable

/-!
# Looking up what was encoded

A lookup in a table that `ksymsEncode` wrote finds exactly the addresses from the first symbol up to
the end of the text, and gives the last symbol at or before the address with its name. With a slide,
the same holds for the moved addresses, as long as the moved address does not wrap.
-/

namespace Bongos.Core

open Tools List

/-- The number of blocks. -/
def blockCount (n : ℕ) : ℕ := (n + (KSYM_BLOCK_SIZE - 1)) / KSYM_BLOCK_SIZE

/-- What stands where in a table. -/
structure KsymTable (syms : List ElfFuncSym) (textBase textEnd : BitVec 64)
    (tokens seqs : List (List Byte)) (tokenOffset streamOffset : ℕ) (blob : List Byte) : Prop where
  header : SliceAt blob 0 (encodeHeader syms.length textBase textEnd KSYM_HEADER_SIZE
    (blockCount syms.length) tokenOffset tokens.length streamOffset (symOff syms seqs syms.length))
  index : ∀ k < blockCount syms.length,
    SliceAt blob (KSYM_HEADER_SIZE + k * 16) (blockEntry syms seqs k)
  tokenTable : TokenTable blob tokenOffset tokens
  record : ∀ i < syms.length,
    SliceAt blob (streamOffset + symOff syms seqs i) (symRecord syms seqs i)
  names : Compressed (syms.map ElfFuncSym.name) tokens seqs
  short : ∀ i < syms.length, (seqs.getD i []).length < 256
  tokens_le : tokenOffset + tokens.length * 4 ≤ blob.length
  stream_le : streamOffset + symOff syms seqs syms.length ≤ blob.length

/-! ## The encoder -/

variable {textBase textEnd : BitVec 64} {syms : List ElfFuncSym} {blob : List Byte}

theorem checkSyms_ok {prev : Option (BitVec 64)}
    (h : checkSyms textBase textEnd prev syms = .ok ()) :
    (∀ p ∈ prev, ∀ s ∈ syms, p < s.addr) ∧ (∀ s ∈ syms, textBase ≤ s.addr ∧ s.addr < textEnd) ∧
      syms.Pairwise fun s s' => s.addr < s'.addr := by
  induction syms generalizing prev with
  | nil => simp
  | cons s syms ih =>
    unfold checkSyms at h
    split_ifs at h with hrange hsorted
    obtain ⟨hlt, hin, hpair⟩ := ih h
    have hfirst : ∀ s' ∈ syms, s.addr < s'.addr := hlt s.addr rfl
    have hs : textBase ≤ s.addr ∧ s.addr < textEnd := by
      rw [not_or, BitVec.not_lt, BitVec.not_le] at hrange
      exact hrange
    refine ⟨fun p hp s' hs' => ?_, forall_mem_cons.2 ⟨hs, hin⟩, pairwise_cons.2 ⟨hfirst, hpair⟩⟩
    have hps : p < s.addr := by
      rw [Option.mem_def] at hp
      simpa [hp] using hsorted
    rcases mem_cons.1 hs' with rfl | hs'
    · exact hps
    · exact BitVec.lt_trans hps (hfirst s' hs')

theorem length_blockEntry (seqs : List (List Byte)) (k : ℕ) :
    (blockEntry syms seqs k).length = 16 := rfl

theorem length_blockEntries (seqs : List (List Byte)) (k : ℕ) :
    ((List.range k).flatMap (blockEntry syms seqs)).length = k * 16 := by
  induction k with
  | zero => rfl
  | succ k ih =>
    rw [range_succ, flatMap_append, length_append, ih, flatMap_singleton, length_blockEntry]
    omega

/-- The parts of a table, one behind the other. -/
theorem table_of_parts {tokens seqs : List (List Byte)} {st : KsymStream} {dir pool : List Byte}
    (hnames : Compressed (syms.map ElfFuncSym.name) tokens seqs)
    (htokens : tokens.length ≤ KSYM_MAX_TOKENS) (hst : StreamOk syms seqs syms.length st)
    (he : encodeTokens tokens = (dir, pool))
    (hblob : blob = encodeHeader syms.length textBase textEnd KSYM_HEADER_SIZE st.indexCount
        (KSYM_HEADER_SIZE + st.index.length) tokens.length
        (KSYM_HEADER_SIZE + st.index.length + dir.length + pool.length) st.stream.length ++
        (st.index ++ (dir ++ (pool ++ st.stream)))) :
    KsymTable syms textBase textEnd tokens seqs (KSYM_HEADER_SIZE + st.index.length)
      (KSYM_HEADER_SIZE + st.index.length + dir.length + pool.length) blob := by
  obtain ⟨hdir, hpool, hentry⟩ := encodeTokens_spec hnames.expansion_le
  rw [he] at hdir hpool hentry
  have hall := SliceAt.of_eq hblob
  have hindex : SliceAt blob KSYM_HEADER_SIZE _ := hall.right
  have hstream : st.stream.length = symOff syms seqs syms.length := by rw [hst.stream_eq, symOff]
  have hcount : st.indexCount = blockCount syms.length := hst.indexCount_eq
  refine ⟨?_, fun k hk => ?_, ⟨htokens, fun i t ht => ?_⟩, fun i hi => ?_, hnames,
    hst.short, ?_, ?_⟩
  · rw [← hcount, ← hstream]
    exact hall.left
  · have hslice := sliceAt_flatMap_range (blockEntry syms seqs) (hcount.symm ▸ hk)
    rw [← hst.index_eq, length_blockEntries] at hslice
    exact hindex.left.trans hslice
  · obtain ⟨poolOff, hle, hdirSlice, hpoolSlice⟩ := hentry i t ht
    have hi : i < tokens.length := (List.getElem?_eq_some_iff.1 ht).1
    have htlen := hnames.expansion_le t (List.mem_of_getElem? ht)
    unfold KSYM_MAX_TOKENS at htokens
    unfold KSYM_MAX_TOKEN_EXPANSION at hle htlen
    refine ⟨poolOff, by omega, by omega, hindex.right.left.trans hdirSlice, ?_⟩
    rw [← hdir]
    exact hindex.right.right.left.trans hpoolSlice
  · have hslice := sliceAt_flatMap_range (symRecord syms seqs) hi
    rw [← hst.stream_eq] at hslice
    exact hindex.right.right.right.trans hslice
  · have hle := hindex.right.left.le
    rwa [hdir] at hle
  · rw [← hstream]
    exact hindex.right.right.right.le

/-- A table that was written without dying. -/
theorem ksymsEncode_table (hne : syms ≠ []) (hascii : ∀ s ∈ syms, ∀ b ∈ s.name, b < 0x80)
    (h : ksymsEncode syms textBase textEnd = .ok blob) :
    (∀ s ∈ syms, textBase ≤ s.addr ∧ s.addr < textEnd) ∧
      syms.Pairwise (fun s s' => s.addr < s'.addr) ∧
      ∃ tokens seqs tokenOffset streamOffset,
        KsymTable syms textBase textEnd tokens seqs tokenOffset streamOffset blob := by
  have hpos : syms.length ≠ 0 := fun h0 => hne (length_eq_zero_iff.1 h0)
  rw [ksymsEncode, if_neg hpos] at h
  split at h
  · cases h
  next hcheck =>
    obtain ⟨-, hrange, hsorted⟩ := checkSyms_ok hcheck
    refine ⟨hrange, hsorted, ?_⟩
    obtain ⟨hnames, htokens⟩ := bpeCompress_spec (syms.map ElfFuncSym.name) (by
      intro name hname
      obtain ⟨s, hs, rfl⟩ := mem_map.1 hname
      exact hascii s hs)
    dsimp only at h
    generalize bpeCompress (syms.map ElfFuncSym.name) = res at h hnames htokens
    obtain ⟨tokens, seqs⟩ := res
    have hlen : seqs.length = syms.length := hnames.length_eq.trans (length_map _)
    split at h
    · cases h
    next st henc =>
      have hst : StreamOk syms seqs syms.length st :=
        encodeSyms_spec hlen (Nat.zero_le _)
          ⟨rfl, rfl, rfl, fun h0 => absurd h0 (Nat.lt_irrefl 0),
            fun j hj => absurd hj (Nat.not_lt_zero j)⟩ henc
      exact ⟨tokens, seqs, _, _, table_of_parts hnames htokens hst rfl (Except.ok.inj h).symm⟩

/-! ## The search for the block -/

variable {addr : BitVec 64}

/-- The search finds how many of the first addresses of the blocks are at or before the address. -/
theorem searchBlock_spec (addr : BitVec 64) {indexOffset blocks : ℕ} {first : ℕ → BitVec 64}
    (hread : ∀ k < blocks, readU64 blob (indexOffset + k * 16) = some (first k))
    (hmono : ∀ i j, i < j → j < blocks → first i < first j) {fuel lo hi : ℕ} {block : Option ℕ}
    (hfuel : hi - lo ≤ fuel) (hle : lo ≤ hi) (hhi : hi ≤ blocks)
    (hbelow : ∀ k < lo, first k ≤ addr) (habove : ∀ k, hi ≤ k → k < blocks → addr < first k)
    (hblock : block = if lo = 0 then none else some (lo - 1)) :
    ∃ m ≤ blocks, (∀ k < m, first k ≤ addr) ∧ (∀ k, m ≤ k → k < blocks → addr < first k) ∧
      searchBlock blob indexOffset addr fuel lo hi block =
        some (if m = 0 then none else some (m - 1)) := by
  induction fuel generalizing lo hi block with
  | zero =>
    have heq : lo = hi := by omega
    exact ⟨lo, by omega, hbelow, heq ▸ habove, by rw [searchBlock, hblock]⟩
  | succ fuel ih =>
    unfold searchBlock
    split_ifs with hlt
    · have hmid : lo ≤ lo + (hi - lo) / 2 ∧ lo + (hi - lo) / 2 < hi := by omega
      generalize lo + (hi - lo) / 2 = mid at hmid
      dsimp only
      rw [hread mid (by omega), Option.bind_eq_bind, Option.bind_some]
      split_ifs with hfirst
      · refine ih (by omega) (by omega) hhi (fun k hk => ?_) habove (by simp)
        rcases Nat.lt_succ_iff_lt_or_eq.1 hk with hk | rfl
        · exact BitVec.le_trans (BitVec.le_of_lt (hmono k mid hk (by omega))) hfirst
        · exact hfirst
      · have hlt' : addr < first mid := BitVec.not_le.1 hfirst
        refine ih (by omega) (by omega) (by omega) hbelow (fun k hk hkb => ?_) hblock
        rcases Nat.eq_or_lt_of_le hk with rfl | hk
        · exact hlt'
        · exact BitVec.lt_trans hlt' (hmono mid k hk hkb)
    · have heq : lo = hi := by omega
      exact ⟨lo, by omega, hbelow, heq ▸ habove, by rw [hblock]⟩

/-! ## The scan of the block -/

section Scan

variable {syms : List ElfFuncSym} {seqs : List (List Byte)} {blob : List Byte}
  {streamOffset : ℕ} {addr : BitVec 64}

/-- The bytes of a name stand behind the number and the length of its record. -/
def nameOff (syms : List ElfFuncSym) (seqs : List (List Byte)) (streamOffset i : ℕ) : ℕ :=
  streamOffset + symOff syms seqs i + (bufUleb128 (symDelta syms i)).length + 1

/-- The match that a scan keeps after it has passed the symbol `i`. -/
def matchAt (syms : List ElfFuncSym) (seqs : List (List Byte)) (streamOffset i : ℕ) : KsymMatch :=
  ⟨symAddr syms i, nameOff syms seqs streamOffset i, BitVec.ofNat 8 (seqs.getD i []).length⟩

theorem nameOff_add_length (syms : List ElfFuncSym) (seqs : List (List Byte)) (streamOffset i : ℕ) :
    nameOff syms seqs streamOffset i + (seqs.getD i []).length =
      streamOffset + symOff syms seqs (i + 1) := by
  rw [symOff_succ, symRecord, nameOff, length_append, length_cons]
  omega

/-- A scan that starts at a block, `i` symbols of which are behind it, stops in front of the first
symbol after the address. -/
theorem scanBlock_spec (addr curAddr : BitVec 64) (best : Option KsymMatch) {block count n i : ℕ}
    (hrecord : ∀ t < count, SliceAt blob (streamOffset + symOff syms seqs (block * 64 + t))
      (symRecord syms seqs (block * 64 + t)))
    (hshort : ∀ t < count, (seqs.getD (block * 64 + t) []).length < 256) (hcount : count ≤ 64)
    (hn : i + n = count) (hcur : 0 < i → curAddr = symAddr syms (block * 64 + (i - 1))) :
    ∃ j, i ≤ j ∧ j ≤ count ∧ (∀ t, i ≤ t → t < j → symAddr syms (block * 64 + t) ≤ addr) ∧
      (j < count → addr < symAddr syms (block * 64 + j)) ∧
      scanBlock blob addr (symAddr syms (block * 64)) n i
          (streamOffset + symOff syms seqs (block * 64 + i)) curAddr best =
        some (if j = i then best else
          some (matchAt syms seqs streamOffset (block * 64 + (j - 1)))) := by
  induction n generalizing i curAddr best with
  | zero =>
    exact ⟨i, Nat.le_refl i, by omega, fun t h1 h2 => absurd h2 (by omega), fun h =>
      absurd h (by omega), by rw [scanBlock, if_pos rfl]⟩
  | succ n ih =>
    have hi : i < count := by omega
    have hrec := hrecord i hi
    have hlen := hshort i hi
    have hend := nameOff_add_length syms seqs streamOffset (block * 64 + i)
    have hle := hrec.right.tail.le
    have haddr : (if i = 0 then symAddr syms (block * 64) else
        curAddr + symDelta syms (block * 64 + i)) = symAddr syms (block * 64 + i) := by
      split_ifs with h0
      · rw [h0, Nat.add_zero]
      · have hmod : (block * 64 + i) % KSYM_BLOCK_SIZE ≠ 0 := by
          rw [show KSYM_BLOCK_SIZE = 64 from rfl]
          omega
        rw [hcur (Nat.pos_of_ne_zero h0), symDelta, if_neg hmod,
          show block * 64 + i - 1 = block * 64 + (i - 1) by omega, BitVec.add_comm,
          BitVec.sub_add_cancel]
    have hbyte : (BitVec.ofNat 8 (seqs.getD (block * 64 + i) []).length).toNat =
        (seqs.getD (block * 64 + i) []).length := by
      rw [BitVec.toNat_ofNat]
      omega
    rw [scanBlock, readUleb128_slice hrec.left, Option.bind_eq_bind, Option.bind_some]
    dsimp only
    rw [readU8, hrec.right.head, Option.bind_eq_bind, Option.bind_some, haddr, hbyte,
      if_neg (by omega)]
    split_ifs with hgt
    · exact ⟨i, Nat.le_refl i, by omega, fun t h1 h2 => absurd h2 (by omega), fun _ => hgt,
        by rw [if_pos rfl]⟩
    · have hoff : streamOffset + symOff syms seqs (block * 64 + i) +
          (bufUleb128 (symDelta syms (block * 64 + i))).length + 1 +
          (seqs.getD (block * 64 + i) []).length =
          streamOffset + symOff syms seqs (block * 64 + (i + 1)) := hend
      obtain ⟨j, hij, hj, hbelow, habove, hscan⟩ := ih (i := i + 1) (symAddr syms (block * 64 + i))
        (some (matchAt syms seqs streamOffset (block * 64 + i))) (by omega) (fun _ => rfl)
      refine ⟨j, by omega, hj, fun t h1 h2 => ?_, habove, ?_⟩
      · rcases Nat.eq_or_lt_of_le h1 with rfl | h1
        · exact BitVec.not_lt.1 hgt
        · exact hbelow t h1 h2
      · rw [hoff]
        refine hscan.trans (congrArg some ?_)
        rw [if_neg (by omega : ¬ j = i)]
        split_ifs with hji
        · rw [hji, Nat.add_sub_cancel]
        · rfl

end Scan

/-! ## The lookup -/

/-- The number of symbols at or before the address. -/
structure SymsUpTo (syms : List ElfFuncSym) (addr : BitVec 64) (m : ℕ) : Prop where
  le_length : m ≤ syms.length
  below : ∀ i < m, symAddr syms i ≤ addr
  above : ∀ i, m ≤ i → i < syms.length → addr < symAddr syms i

section Lookup

variable {syms : List ElfFuncSym} {textBase textEnd : BitVec 64} {tokens seqs : List (List Byte)}
  {tokenOffset streamOffset : ℕ} {blob : List Byte}

variable {i j k nameCap m : ℕ}

theorem symAddr_eq (hi : i < syms.length) : symAddr syms i = syms[i].addr := by
  rw [symAddr, getD_eq_getElem?_getD, getElem?_eq_getElem hi]
  rfl

theorem symAddr_lt (hsorted : syms.Pairwise fun s s' => s.addr < s'.addr) (hij : i < j)
    (hj : j < syms.length) : symAddr syms i < symAddr syms j := by
  rw [symAddr_eq hj, symAddr_eq (Nat.lt_trans hij hj)]
  exact pairwise_iff_getElem.1 hsorted i j _ _ hij

section

variable (h : KsymTable syms textBase textEnd tokens seqs tokenOffset streamOffset blob)

include h

/-- The two numbers of an entry of the index. -/
theorem KsymTable.readIndex (hk : k < blockCount syms.length) :
    readU64 blob (KSYM_HEADER_SIZE + k * 16) = some (symAddr syms (k * 64)) ∧
      readU32 blob (KSYM_HEADER_SIZE + k * 16 + 8) =
        some (BitVec.ofNat 32 (symOff syms seqs (k * 64))) := by
  have hentry := h.index k hk
  exact ⟨readU64_slice hentry.left.left, readU32_slice hentry.left.right⟩

/-- The name of a symbol, read where a match says. -/
theorem KsymTable.expandName_eq (hi : i < syms.length) (hcap : 1 ≤ nameCap) :
    expandName blob tokenOffset tokens.length (nameOff syms seqs streamOffset i)
      (BitVec.ofNat 8 (seqs.getD i []).length) nameCap =
        some (syms[i].name.take (nameCap - 1) ++ [0]) := by
  have hseq : i < seqs.length := by
    rw [h.names.length_eq, length_map]
    exact hi
  have hget : seqs[i]? = some (seqs.getD i []) := by
    rw [getD_eq_getElem?_getD, getElem?_eq_getElem hseq]
    rfl
  have hname := h.names.name i syms[i].name (seqs.getD i [])
    (by rw [getElem?_map, getElem?_eq_getElem hi]; rfl) hget
  have hrec := h.record i hi
  exact expandName_slice h.tokenTable hname (h.short i hi) hcap hrec.right.tail

end

/-- How many symbols of a block there are, as the lookup computes it. -/
theorem symsInBlock_eq {n : ℕ} (hn : n < 2^32) (hk : k * 64 < n) :
    (if BitVec.ofNat 32 n - BitVec.ofNat 32 k * 64#32 < 64#32
      then BitVec.ofNat 32 n - BitVec.ofNat 32 k * 64#32 else 64#32).toNat =
        min (n - k * 64) 64 := by
  have hleft : (BitVec.ofNat 32 n - BitVec.ofNat 32 k * 64#32).toNat = n - k * 64 := by
    simp only [BitVec.toNat_sub, BitVec.toNat_mul, BitVec.toNat_ofNat]
    omega
  have hsize : (64#32).toNat = 64 := rfl
  split_ifs with hlt
  · rw [BitVec.lt_def, hleft, hsize] at hlt
    rw [hleft, Nat.min_eq_left (Nat.le_of_lt hlt)]
  · rw [BitVec.lt_def, hleft, hsize] at hlt
    rw [hsize, Nat.min_eq_right (Nat.le_of_not_lt hlt)]

/-- Among sorted symbols it is enough to look at the two around the address. -/
theorem SymsUpTo.of_sorted (hsorted : syms.Pairwise fun s s' => s.addr < s'.addr)
    (hm : m ≤ syms.length) (hbelow : 0 < m → symAddr syms (m - 1) ≤ addr)
    (habove : m < syms.length → addr < symAddr syms m) : SymsUpTo syms addr m := by
  refine ⟨hm, fun i hi => ?_, fun i hi hin => ?_⟩
  · rcases Nat.eq_or_lt_of_le (Nat.le_sub_one_of_lt hi) with rfl | hlt
    · exact hbelow (by omega)
    · exact BitVec.le_trans (BitVec.le_of_lt (symAddr_lt hsorted hlt (by omega)))
        (hbelow (by omega))
  · rcases Nat.eq_or_lt_of_le hi with rfl | hlt
    · exact habove hin
    · exact BitVec.lt_trans (habove (by omega)) (symAddr_lt hsorted hlt hin)

/-- The numbers of a table that is smaller than 4 GiB. -/
structure SmallTable (syms : List ElfFuncSym) (tokens seqs : List (List Byte))
    (tokenOffset streamOffset : ℕ) (blob : List Byte) : Prop where
  count : (BitVec.ofNat 32 syms.length).toNat = syms.length
  indexCount : (BitVec.ofNat 32 (blockCount syms.length)).toNat = blockCount syms.length
  index_le : KSYM_HEADER_SIZE + blockCount syms.length * 16 ≤ blob.length
  tokenOffset : (BitVec.ofNat 32 tokenOffset).toNat = tokenOffset
  tokenCount : (BitVec.ofNat 32 tokens.length).toNat = tokens.length
  streamOffset : (BitVec.ofNat 32 streamOffset).toNat = streamOffset
  symOff : ∀ i ≤ syms.length, (BitVec.ofNat 32 (symOff syms seqs i)).toNat = symOff syms seqs i

theorem symOff_le (hij : i ≤ j) : symOff syms seqs i ≤ symOff syms seqs j := by
  induction j with
  | zero => exact Nat.le_zero.1 hij ▸ Nat.le_refl _
  | succ j ih =>
    rcases Nat.eq_or_lt_of_le hij with rfl | hlt
    · exact Nat.le_refl _
    · rw [symOff_succ]
      exact Nat.le_trans (ih (Nat.lt_succ_iff.1 hlt)) (Nat.le_add_right _ _)

section

variable (h : KsymTable syms textBase textEnd tokens seqs tokenOffset streamOffset blob)

include h

theorem KsymTable.small (hne : syms ≠ []) (hlen : blob.length < 2^32) :
    SmallTable syms tokens seqs tokenOffset streamOffset blob := by
  have hsmall : ∀ n ≤ blob.length, (BitVec.ofNat 32 n).toNat = n := fun n hn => by
    rw [BitVec.toNat_ofNat, Nat.mod_eq_of_lt (by omega)]
  have hpos : 0 < syms.length := length_pos_iff.2 hne
  have hstream := h.stream_le
  have htokens := h.tokens_le
  have hcount : syms.length ≤ symOff syms seqs syms.length := le_symOff _
  have hblocks : blockCount syms.length = (syms.length + 63) / 64 := rfl
  -- The index ends behind its last entry.
  have hindex : KSYM_HEADER_SIZE + blockCount syms.length * 16 ≤ blob.length := by
    have hle := (h.index (blockCount syms.length - 1) (by omega)).le
    rw [length_blockEntry] at hle
    omega
  refine ⟨hsmall _ (by omega), hsmall _ (by omega), hindex, hsmall _ (by omega),
    hsmall _ (by omega), hsmall _ (by omega), fun i hi => hsmall _ ?_⟩
  have hle : symOff syms seqs i ≤ symOff syms seqs syms.length := symOff_le hi
  omega

/-- A lookup inside the text is a search for the block, a scan of it and an expansion. -/
theorem KsymTable.lookup_eq (hne : syms ≠ []) (hlen : blob.length < 2^32)
    (hbase : textBase ≤ addr) (hend : addr < textEnd) :
    ksymDecodeLookup blob addr nameCap =
      (searchBlock blob KSYM_HEADER_SIZE addr (blockCount syms.length) 0 (blockCount syms.length)
        none).bind fun block => block.bind fun blockIdx =>
      (readU64 blob (KSYM_HEADER_SIZE + blockIdx * 16)).bind fun blockFirstAddr =>
      (readU32 blob (KSYM_HEADER_SIZE + blockIdx * 16 + 8)).bind fun blockStreamOff =>
      (scanBlock blob addr blockFirstAddr
        (if BitVec.ofNat 32 syms.length - BitVec.ofNat 32 blockIdx * 64#32 < 64#32
          then BitVec.ofNat 32 syms.length - BitVec.ofNat 32 blockIdx * 64#32 else 64#32).toNat 0
        (streamOffset + blockStreamOff.toNat) 0 none).bind fun best => best.bind fun best =>
      (expandName blob tokenOffset tokens.length best.bestNameOff best.bestNameLen nameCap).bind
        fun name => some (name, best.bestAddr) := by
  have hs := h.small hne hlen
  have hpos : 0 < syms.length := length_pos_iff.2 hne
  have hblocks : blockCount syms.length = (syms.length + 63) / 64 := rfl
  have hzero : ∀ n, (BitVec.ofNat 32 n).toNat = n → 0 < n → BitVec.ofNat 32 n ≠ 0 := by
    intro n hn hpos h0
    rw [h0] at hn
    exact Nat.ne_of_lt hpos hn
  have hguard : BitVec.ofNat 32 syms.length ≠ 0 ∧ BitVec.ofNat 32 (blockCount syms.length) ≠ 0 ∧
      (BitVec.ofNat 32 KSYM_BLOCK_SHIFT).toNat ≤ 31 ∧ textBase ≤ addr ∧ addr < textEnd :=
    ⟨hzero _ hs.count hpos, hzero _ hs.indexCount (by omega), by decide, hbase, hend⟩
  have hfits : KSYM_HEADER_SIZE + blockCount syms.length * 16 ≤ blob.length ∧
      streamOffset + symOff syms seqs syms.length ≤ blob.length := ⟨hs.index_le, h.stream_le⟩
  have hhs : (BitVec.ofNat 32 KSYM_HEADER_SIZE).toNat = KSYM_HEADER_SIZE := rfl
  have hshift : 1#32 <<< (BitVec.ofNat 32 KSYM_BLOCK_SHIFT).toNat = 64#32 := rfl
  rw [ksymDecodeLookup, readHeader_slice h.header]
  dsimp only [guard]
  simp only [Option.bind_eq_bind, Option.bind_some, if_pos hguard, hhs, hs.indexCount,
    hs.streamOffset, hs.symOff _ (Nat.le_refl _), if_pos hfits, hshift, hs.tokenOffset,
    hs.tokenCount]
  rfl

/-- The lookup gives the last symbol at or before the address, if there is one. -/
theorem KsymTable.lookup (hne : syms ≠ []) (hsorted : syms.Pairwise fun s s' => s.addr < s'.addr)
    (hlen : blob.length < 2^32) (hbase : textBase ≤ addr) (hend : addr < textEnd)
    (hcap : 1 ≤ nameCap) :
    ∃ m, SymsUpTo syms addr m ∧ ksymDecodeLookup blob addr nameCap =
      if m = 0 then none
      else syms[m - 1]?.map fun s => (s.name.take (nameCap - 1) ++ [0], s.addr) := by
  have hblocks : blockCount syms.length = (syms.length + 63) / 64 := rfl
  have hs := h.small hne hlen
  have hn : syms.length < 2^32 := hs.count ▸ BitVec.isLt _
  rw [h.lookup_eq hne hlen hbase hend]
  obtain ⟨mb, hmb, hfirst, hnext, hsearch⟩ := searchBlock_spec addr (fun k hk => (h.readIndex hk).1)
    (fun i j hij hj => symAddr_lt hsorted (by omega) (by omega))
    (Nat.sub_le _ 0) (Nat.zero_le _) (Nat.le_refl _) (fun k hk => absurd hk (Nat.not_lt_zero k))
    (fun k hk hk' => absurd hk' (Nat.not_lt.2 hk)) (if_pos rfl).symm
  rw [hsearch, Option.bind_some]
  by_cases hmb0 : mb = 0
  · refine ⟨0, .of_sorted hsorted (Nat.zero_le _) (fun h0 => absurd h0 (Nat.lt_irrefl 0))
      (fun _ => ?_), by rw [if_pos hmb0, if_pos rfl, Option.bind_none]⟩
    exact hnext 0 (by omega) (by omega)
  · obtain ⟨k, rfl⟩ : ∃ k, mb = k + 1 := ⟨mb - 1, by omega⟩
    have hk : k < blockCount syms.length := by omega
    rw [if_neg hmb0, Nat.add_sub_cancel, Option.bind_some, (h.readIndex hk).1, Option.bind_some,
      (h.readIndex hk).2, Option.bind_some, hs.symOff _ (by omega),
      symsInBlock_eq hn (by omega)]
    -- The first symbol of the block is not behind the address, so the scan passes at least it.
    obtain ⟨j, -, hj, hbelow, habove, hscan⟩ := scanBlock_spec addr 0 none
      (fun t ht => h.record (k * 64 + t) (by omega)) (fun t ht => h.short _ (by omega))
      (Nat.min_le_right (syms.length - k * 64) 64) (Nat.zero_add _) fun h0 =>
        absurd h0 (Nat.lt_irrefl 0)
    rw [Nat.add_zero] at hscan
    have hj0 : j ≠ 0 := by
      rintro rfl
      have hgt := habove (by omega)
      exact absurd (hfirst k (Nat.lt_succ_self k)) (BitVec.not_le.2 hgt)
    have hlast : k * 64 + (j - 1) < syms.length := by omega
    refine ⟨k * 64 + j, .of_sorted hsorted (by omega) (fun _ => ?_) (fun hlt => ?_), ?_⟩
    · rw [show k * 64 + j - 1 = k * 64 + (j - 1) by omega]
      exact hbelow (j - 1) (Nat.zero_le _) (by omega)
    · by_cases hjc : j < min (syms.length - k * 64) 64
      · exact habove hjc
      · rw [show k * 64 + j = (k + 1) * 64 by omega]
        exact hnext (k + 1) (Nat.le_refl _) (by omega)
    · rw [hscan, Option.bind_some, if_neg hj0, Option.bind_some, if_neg (by omega),
        show k * 64 + j - 1 = k * 64 + (j - 1) by omega, getElem?_eq_getElem hlast]
      dsimp only [matchAt]
      rw [h.expandName_eq hlast hcap, symAddr_eq hlast]
      rfl

/-- Outside the text there is nothing to find. -/
theorem KsymTable.lookup_outside (hout : ¬ (textBase ≤ addr ∧ addr < textEnd)) : ksymDecodeLookup blob addr nameCap = none := by
  rw [ksymDecodeLookup, readHeader_slice h.header]
  dsimp only [guard]
  simp only [Option.bind_eq_bind, Option.bind_some]
  rw [if_neg fun hguard => hout ⟨hguard.2.2.2.1, hguard.2.2.2.2⟩]
  rfl

end

/-- The symbols at or before the address are those in front of a point of the list. -/
theorem SymsUpTo.eq_length (h : SymsUpTo syms addr m)
    {pre post : List ElfFuncSym} {s : ElfFuncSym} (hsyms : syms = pre ++ s :: post)
    (hs : s.addr ≤ addr) (hpost : ∀ s' ∈ post, addr < s'.addr) : m = pre.length + 1 := by
  have hlen : syms.length = pre.length + (post.length + 1) := by
    rw [hsyms, length_append, length_cons]
  have hat : ∀ i, symAddr syms (pre.length + i) = symAddr (s :: post) i := fun i => by
    rw [symAddr, symAddr, hsyms, getD_eq_getElem?_getD, getD_eq_getElem?_getD,
      getElem?_append_right (Nat.le_add_right _ _), Nat.add_sub_cancel_left]
  have hle : ¬ m ≤ pre.length := fun hm => by
    have hgt := h.above (pre.length + 0) hm (by omega)
    rw [hat] at hgt
    exact absurd hs (BitVec.not_le.2 hgt)
  have hge : ¬ pre.length + 1 < m := fun hm => by
    have hbelow := h.below (pre.length + 1) hm
    have hm' := h.le_length
    have hi : 0 < post.length := by omega
    have hin : 1 < (s :: post).length := by simpa using hi
    rw [hat, symAddr_eq hin] at hbelow
    exact absurd hbelow (BitVec.not_le.2 (hpost _ (getElem_mem hi)))
  omega

end Lookup

/-! ## The slide -/

/-- The moved lookup is the lookup, moved; a moved address that wraps is not found. -/
theorem ksymDecodeLookupSlid_add (addr slide : BitVec 64) (nameCap : ℕ) :
    ksymDecodeLookupSlid blob (addr + slide) slide nameCap =
      if addr.toNat + slide.toNat < 2^64 then
        (ksymDecodeLookup blob addr nameCap).map fun r => (r.1, r.2 + slide)
      else none := by
  have hsum : (addr + slide).toNat = (addr.toNat + slide.toNat) % 2^64 := BitVec.toNat_add _ _
  rw [ksymDecodeLookupSlid]
  split_ifs with hfit
  · have hle : slide ≤ addr + slide := by
      rw [BitVec.le_def, hsum, Nat.mod_eq_of_lt hfit]
      exact Nat.le_add_left _ _
    rw [guard, if_pos hle, BitVec.add_sub_cancel]
    cases ksymDecodeLookup blob addr nameCap with
    | none => rfl
    | some r => rfl
  · have hle : ¬ slide ≤ addr + slide := by
      rw [BitVec.le_def, hsum]
      omega
    rw [guard, if_neg hle]
    rfl

/-! ## Round trip -/

/-- A lookup in an encoded table finds the addresses from the first symbol to the end of the text.
It gives the last symbol at or before the address. A lookup with a slide does the same for the moved
addresses, unless the moved address wraps. -/
theorem ksym_roundTrip {syms : List ElfFuncSym} {textBase textEnd : BitVec 64} {blob : List Byte}
    (hne : syms ≠ []) (hascii : ∀ s ∈ syms, ∀ b ∈ s.name, b < 0x80)
    (henc : ksymsEncode syms textBase textEnd = .ok blob) (hlen : blob.length < 2^32)
    (addr : BitVec 64) {nameCap : ℕ} (hcap : 1 ≤ nameCap) :
    ((ksymDecodeLookup blob addr nameCap).isSome ↔ (syms.head hne).addr ≤ addr ∧ addr < textEnd) ∧
    (∀ pre s post, syms = pre ++ s :: post → s.addr ≤ addr → (∀ s' ∈ post, addr < s'.addr) →
      addr < textEnd →
      ksymDecodeLookup blob addr nameCap = some (s.name.take (nameCap - 1) ++ [0], s.addr)) ∧
    ∀ slide, ksymDecodeLookupSlid blob (addr + slide) slide nameCap =
      if addr.toNat + slide.toNat < 2^64 then
        (ksymDecodeLookup blob addr nameCap).map fun r => (r.1, r.2 + slide)
      else none := by
  obtain ⟨hrange, hsorted, tokens, seqs, tokenOffset, streamOffset, h⟩ :=
    ksymsEncode_table hne hascii henc
  have hpos : 0 < syms.length := length_pos_iff.2 hne
  have hhead : symAddr syms 0 = (syms.head hne).addr := by
    rw [symAddr_eq hpos, head_eq_getElem]
  have hfirst : textBase ≤ (syms.head hne).addr := (hrange _ (head_mem hne)).1
  refine ⟨?_, fun pre s post hsyms hs hpost hend => ?_, fun slide =>
    ksymDecodeLookupSlid_add addr slide nameCap⟩
  · by_cases hin : textBase ≤ addr ∧ addr < textEnd
    · obtain ⟨m, hm, hlookup⟩ := h.lookup hne hsorted hlen hin.1 hin.2 hcap
      have hle := hm.le_length
      rw [hlookup, ← hhead]
      split_ifs with hm0
      · have hgt := hm.above 0 (by omega) hpos
        simp [BitVec.not_le.2 hgt]
      · have hlt : m - 1 < syms.length := by omega
        simp [getElem?_eq_getElem hlt, hm.below 0 (by omega), hin.2]
    · rw [h.lookup_outside hin]
      refine iff_of_false (by simp) fun hge => hin ⟨BitVec.le_trans hfirst hge.1, hge.2⟩
  · have hmem : s ∈ syms := hsyms ▸ mem_append_right pre (mem_cons_self ..)
    have hbase : textBase ≤ addr := BitVec.le_trans (hrange s hmem).1 hs
    obtain ⟨m, hm, hlookup⟩ := h.lookup hne hsorted hlen hbase hend hcap
    obtain rfl := hm.eq_length hsyms hs hpost
    rw [hlookup, if_neg (Nat.succ_ne_zero _), Nat.add_sub_cancel, hsyms,
      getElem?_append_right (Nat.le_refl _), Nat.sub_self]
    rfl

/-! ## A table of two symbols -/

/-- Where at most the pair `k` is frequent, a round considers no other. -/
theorem bpeBest_of_only {tokens seqs : List (List Byte)} (k : ℕ) (hk : k < 65536)
    (h : ∀ p < 65536, p ≠ k →
      pairCount seqs (.ofNat 8 (p >>> 8)) (.ofNat 8 (p &&& 0xFF)) < KSYM_MIN_PAIR_COUNT) :
    bpeBest tokens seqs = bpeConsider tokens seqs ⟨0, 0, 0, []⟩ k := by
  have hfold : ∀ n ≤ 65536, (List.range n).foldl (bpeConsider tokens seqs) ⟨0, 0, 0, []⟩ =
      if k < n then bpeConsider tokens seqs ⟨0, 0, 0, []⟩ k else ⟨0, 0, 0, []⟩ := by
    intro n hn
    induction n with
    | zero => rfl
    | succ n ih =>
      rw [range_succ, foldl_append, foldl_cons, foldl_nil, ih (by omega)]
      by_cases hnk : n = k
      · rw [hnk, if_neg (by omega), if_pos (by omega)]
      · rw [bpeConsider, if_pos (h n hn hnk)]
        exact if_congr (by omega) rfl rfl
  rw [bpeBest, hfold _ (Nat.le_refl _), if_pos hk]

/-- The functions `aaaaa` and `b` of a kernel whose text is one page. -/
def twoSyms : List ElfFuncSym :=
  [⟨0xffffffff80000000, .replicate 5 0x61⟩, ⟨0xffffffff80000100, [0x62]⟩]

/-- The table of the two functions, with the token `aa`. -/
def twoSymsBlob : List Byte :=
  encodeHeader 2 0xffffffff80000000 0xffffffff80001000 64 1 80 1 86 9 ++
    (bufU64 0xffffffff80000000 ++ bufU32 0 ++ bufU32 0 ++ ([0, 0, 2, 0, 0x61, 0x61] ++
      ([0, 3, 0x80, 0x80, 0x61] ++ [0x80, 2, 1, 0x62])))

theorem bpeCompress_twoSyms : bpeCompress (twoSyms.map ElfFuncSym.name) =
    ([[0x61, 0x61]], [[0x80, 0x80, 0x61], [0x62]]) := by
  have hfirst : bpeBest [] (twoSyms.map ElfFuncSym.name) = ⟨4, 0x61, 0x61, [0x61, 0x61]⟩ := by
    refine (bpeBest_of_only 0x6161 (by decide) fun p hp hne => ?_).trans (by decide +kernel)
    have hpair : ¬ (0x61#8 = .ofNat 8 (p >>> 8) ∧ 0x61#8 = .ofNat 8 (p &&& 0xFF)) := by
      simp only [← BitVec.toNat_inj, BitVec.toNat_ofNat, Nat.shiftRight_eq_div_pow,
        Nat.and_two_pow_sub_one_eq_mod p 8]
      omega
    generalize BitVec.ofNat 8 (p >>> 8) = a, BitVec.ofNat 8 (p &&& 0xFF) = b at *
    simp [twoSyms, pairCount, pairsIn, hpair, KSYM_MIN_PAIR_COUNT]
  have hsecond : bpeBest [[0x61, 0x61]] [[0x80, 0x80, 0x61], [0x62]] = ⟨0, 0, 0, []⟩ := by
    refine (bpeBest_of_only 0 (by decide) fun p _ _ => ?_).trans (by decide +kernel)
    simp only [pairCount, pairsIn, map_cons, map_nil, sum_cons, sum_nil]
    split_ifs <;> decide
  have hseqs : (twoSyms.map ElfFuncSym.name).map (replacePair 0x61 0x61 (.ofNat 8 0x80)) =
      [[0x80, 0x80, 0x61], [0x62]] := by decide
  rw [bpeCompress, show KSYM_MAX_TOKENS = 126 + 1 + 1 from rfl, bpeRounds, hfirst]
  dsimp only
  rw [if_neg (by decide), nil_append, length_nil, Nat.add_zero, hseqs, bpeRounds,
    hsecond]
  rfl

theorem ksymsEncode_twoSyms :
    ksymsEncode twoSyms 0xffffffff80000000 0xffffffff80001000 = .ok twoSymsBlob := by
  unfold ksymsEncode
  rw [bpeCompress_twoSyms]
  rfl

theorem ksym_roundTrip_twoSyms :
    ksymDecodeLookup twoSymsBlob 0xffffffff80000080 64 =
        some (.replicate 5 0x61 ++ [0], 0xffffffff80000000) ∧
      ksymDecodeLookupSlid twoSymsBlob (0xffffffff80000080 + 0x200000) 0x200000 64 =
        some (.replicate 5 0x61 ++ [0], 0xffffffff80200000) := by
  obtain ⟨-, hfound, hslid⟩ := ksym_roundTrip (by decide) (by decide) ksymsEncode_twoSyms
    (by decide) 0xffffffff80000080 (by decide : 1 ≤ 64)
  have ha := hfound [] _ _ rfl (by decide) (by decide) (by decide)
  refine ⟨ha, ?_⟩
  rw [hslid, if_pos (by decide), ha]
  rfl

/-- A slide that takes the address over the end of the address space: the symbol is there, but the
moved address is below the slide and is refused. -/
theorem ksym_slid_wraps :
    ksymsEncode twoSyms 0xffffffff80000000 0xffffffff80001000 = .ok twoSymsBlob ∧
      twoSymsBlob.length < 2^32 ∧
      ksymDecodeLookup twoSymsBlob 0xffffffff80000180 64 = some ([0x62, 0], 0xffffffff80000100) ∧
      ksymDecodeLookupSlid twoSymsBlob (0xffffffff80000180 + 0x80000000) 0x80000000 64 = none :=
  ⟨ksymsEncode_twoSyms, by decide, by decide +kernel, by decide +kernel⟩

end Bongos.Core
