import Bongos.Core.KsymFormat
import Mathlib.Data.List.Induction

/-!
# The layout of the symbol table

What `ksymsEncode` writes, place by place: the header, one entry of the index for every block of
symbols, the tokens, and one record of the stream for every symbol.
-/

namespace Bongos.Core

open Tools List

/-! ## The symbols -/

section Records

variable (syms : List ElfFuncSym) (seqs : List (List Byte))

/-- The address of a symbol. -/
def symAddr (i : ℕ) : BitVec 64 := (syms.getD i ⟨0, []⟩).addr

/-- The first number of a symbol's record: how far the symbol is behind the one before it in its
block. -/
def symDelta (i : ℕ) : BitVec 64 :=
  if i % KSYM_BLOCK_SIZE = 0 then 0 else symAddr syms i - symAddr syms (i - 1)

/-- The record of a symbol in the stream. -/
def symRecord (i : ℕ) : List Byte :=
  bufUleb128 (symDelta syms i) ++ BitVec.ofNat 8 (seqs.getD i []).length :: seqs.getD i []

/-- Where the record of a symbol starts. -/
def symOff (i : ℕ) : ℕ := ((List.range i).flatMap (symRecord syms seqs)).length

/-- The entry of a block in the index. -/
def blockEntry (k : ℕ) : List Byte :=
  bufU64 (symAddr syms (k * KSYM_BLOCK_SIZE)) ++
    bufU32 (BitVec.ofNat 32 (symOff syms seqs (k * KSYM_BLOCK_SIZE))) ++ bufU32 0

/-- What has been written after `i` symbols. -/
structure StreamOk (i : ℕ) (st : KsymStream) : Prop where
  stream_eq : st.stream = (List.range i).flatMap (symRecord syms seqs)
  index_eq : st.index = (List.range st.indexCount).flatMap (blockEntry syms seqs)
  indexCount_eq : st.indexCount = (i + (KSYM_BLOCK_SIZE - 1)) / KSYM_BLOCK_SIZE
  prevAddr_eq : 0 < i → st.prevAddr = symAddr syms (i - 1)
  short : ∀ j < i, (seqs.getD j []).length < 256

end Records

section Encode

variable {syms : List ElfFuncSym} {seqs : List (List Byte)}

theorem symOff_succ (i : ℕ) :
    symOff syms seqs (i + 1) = symOff syms seqs i + (symRecord syms seqs i).length := by
  rw [symOff, symOff, range_succ, flatMap_append, length_append, flatMap_singleton]

/-- Every record has at least the byte of the name's length. -/
theorem le_symOff (i : ℕ) : i ≤ symOff syms seqs i := by
  induction i with
  | zero => exact Nat.zero_le _
  | succ i ih =>
    rw [symOff_succ, symRecord, length_append, length_cons]
    omega

/-- One symbol. -/
theorem StreamOk.step {i : ℕ} {st st' : KsymStream} (h : StreamOk syms seqs i st)
    (he : encodeSym st i (symAddr syms i) (seqs.getD i []) = .ok st') :
    StreamOk syms seqs (i + 1) st' := by
  have hsize : KSYM_BLOCK_SIZE = 64 := rfl
  have hcount := h.indexCount_eq
  rw [hsize] at hcount
  -- Inside a block, there is a symbol before this one.
  have hdelta : (if i % KSYM_BLOCK_SIZE = 0 then 0 else symAddr syms i - st.prevAddr) =
      symDelta syms i := by
    unfold symDelta
    split_ifs with hblock
    · rfl
    · rw [h.prevAddr_eq (Nat.pos_of_ne_zero fun h0 => hblock (by rw [h0, Nat.zero_mod]))]
  have hstream : st.stream ++ symRecord syms seqs i =
      (List.range (i + 1)).flatMap (symRecord syms seqs) := by
    rw [range_succ, flatMap_append, flatMap_singleton, h.stream_eq]
  have hshort : (seqs.getD i []).length < 256 → ∀ j < i + 1, (seqs.getD j []).length < 256 := by
    intro hi j hj
    rcases Nat.lt_succ_iff_lt_or_eq.1 hj with hj | rfl
    · exact h.short j hj
    · exact hi
  unfold encodeSym at he
  by_cases hlong : (seqs.getD i []).length > 255
  · rw [if_pos hlong] at he
    cases he
  · rw [if_neg hlong] at he
    by_cases hblock : i % KSYM_BLOCK_SIZE = 0
    · rw [if_pos hblock] at hdelta
      simp only [if_pos hblock, hdelta] at he
      cases he
      have hk : st.indexCount * KSYM_BLOCK_SIZE = i := by
        rw [hsize] at hblock ⊢
        omega
      refine ⟨hstream, ?_, ?_, fun _ => rfl, hshort (by omega)⟩
      · have hentry : blockEntry syms seqs st.indexCount = bufU64 (symAddr syms i) ++
            bufU32 (BitVec.ofNat 32 st.stream.length) ++ bufU32 0 := by
          rw [blockEntry, hk, symOff, h.stream_eq]
        rw [range_succ, flatMap_append, flatMap_singleton, hentry, ← h.index_eq]
      · rw [hsize] at hblock ⊢
        dsimp only
        omega
    · rw [if_neg hblock] at hdelta
      simp only [if_neg hblock, hdelta] at he
      cases he
      refine ⟨hstream, h.index_eq, ?_, fun _ => rfl, hshort (by omega)⟩
      rw [hsize] at hblock ⊢
      dsimp only
      omega

/-- All symbols. -/
theorem encodeSyms_spec (hlen : seqs.length = syms.length) {i : ℕ} {st st' : KsymStream}
    (hi : i ≤ syms.length) (h : StreamOk syms seqs i st)
    (he : encodeSyms i ((syms.zip seqs).drop i) st = .ok st') :
    StreamOk syms seqs syms.length st' := by
  have hzip : (syms.zip seqs).length = syms.length := by rw [length_zip, hlen, Nat.min_self]
  induction hn : syms.length - i generalizing i st with
  | zero =>
    rw [drop_eq_nil_of_le (by omega)] at he
    cases he
    rwa [show syms.length = i by omega]
  | succ n ih =>
    have hlt : i < (syms.zip seqs).length := by omega
    have hi' : i < syms.length := by omega
    have hiseq : i < seqs.length := by omega
    rw [drop_eq_getElem_cons hlt, encodeSyms, getElem_zip] at he
    have haddr : syms[i].addr = symAddr syms i := by
      rw [symAddr, getD_eq_getElem?_getD, getElem?_eq_getElem hi']
      rfl
    have hseq : seqs[i] = seqs.getD i [] := by
      rw [getD_eq_getElem?_getD, getElem?_eq_getElem hiseq]
      rfl
    rw [haddr, hseq] at he
    split at he
    · cases he
    next st1 hsym => exact ih (by omega) (h.step hsym) he (by omega)

end Encode

/-! ## The tokens -/

/-- The directory has an entry of four bytes for each token, which says where the token stands in
the pool. -/
theorem encodeTokens_spec {tokens : List (List Byte)}
    (h : ∀ t ∈ tokens, t.length ≤ KSYM_MAX_TOKEN_EXPANSION) :
    (encodeTokens tokens).1.length = tokens.length * 4 ∧
      (encodeTokens tokens).2.length ≤ tokens.length * KSYM_MAX_TOKEN_EXPANSION ∧
      ∀ (i : ℕ) t, tokens[i]? = some t → ∃ poolOff ≤ i * KSYM_MAX_TOKEN_EXPANSION,
        SliceAt (encodeTokens tokens).1 (i * 4)
          (bufU16 (BitVec.ofNat 16 poolOff) ++ [BitVec.ofNat 8 t.length, 0]) ∧
        SliceAt (encodeTokens tokens).2 poolOff t := by
  induction tokens using List.reverseRecOn with
  | nil => exact ⟨rfl, Nat.zero_le _, fun i t ht => by cases ht⟩
  | append_singleton tokens t ih =>
    obtain ⟨hdir, hpool, hentry⟩ := ih fun u hu => h u (mem_append_left _ hu)
    have ht := h t (mem_append_right _ (mem_singleton_self t))
    have hstep : encodeTokens (tokens ++ [t]) =
        ((encodeTokens tokens).1 ++ (bufU16 (BitVec.ofNat 16 (encodeTokens tokens).2.length) ++
          [BitVec.ofNat 8 t.length, 0]), (encodeTokens tokens).2 ++ t) := by
      rw [encodeTokens, foldl_append]
      rfl
    rw [hstep]
    refine ⟨?_, ?_, fun i u hu => ?_⟩
    · simp only [length_append, hdir, length_bufU16, length_cons, length_nil]
      omega
    · simp only [length_append, List.length_singleton, Nat.add_mul]
      omega
    · rcases Nat.lt_or_ge i tokens.length with hi | hi
      · rw [getElem?_append_left hi] at hu
        obtain ⟨poolOff, hle, h1, h2⟩ := hentry i u hu
        exact ⟨poolOff, hle, h1.append _, h2.append _⟩
      · rw [getElem?_append_right hi] at hu
        obtain ⟨hi0, rfl⟩ : i - tokens.length = 0 ∧ t = u := by
          obtain ⟨hlt, heq⟩ := List.getElem?_eq_some_iff.1 hu
          rw [List.length_singleton] at hlt
          have hi0 : i - tokens.length = 0 := by omega
          simp only [hi0, getElem_cons_zero] at heq
          exact ⟨hi0, heq⟩
        have hieq : i = tokens.length := by omega
        refine ⟨(encodeTokens tokens).2.length, hieq ▸ hpool, ?_, ?_⟩
        · exact ⟨(encodeTokens tokens).1, [], by simp, by rw [hdir, hieq]⟩
        · exact ⟨(encodeTokens tokens).2, [], by simp, rfl⟩

/-! ## The header -/

theorem readHeader_slice {blob : List Byte} {textBase textEnd : BitVec 64}
    {count indexOffset indexCount tokenOffset tokenCount streamOffset streamSize : ℕ}
    (h : SliceAt blob 0 (encodeHeader count textBase textEnd indexOffset indexCount tokenOffset
      tokenCount streamOffset streamSize)) :
    readHeader blob = some
      ⟨BitVec.ofNat 32 count, BitVec.ofNat 32 KSYM_BLOCK_SHIFT, textBase, textEnd,
        BitVec.ofNat 32 indexOffset, BitVec.ofNat 32 indexCount, BitVec.ofNat 32 tokenOffset,
        BitVec.ofNat 32 tokenCount, BitVec.ofNat 32 streamOffset, BitVec.ofNat 32 streamSize⟩ := by
  have hsize : KSYM_HEADER_SIZE ≤ blob.length := by
    have hle := h.le
    have hlen : (encodeHeader count textBase textEnd indexOffset indexCount tokenOffset
      tokenCount streamOffset streamSize).length = KSYM_HEADER_SIZE := rfl
    omega
  unfold encodeHeader at h
  simp only [append_assoc] at h
  -- The fields one after the other, each behind the bytes of those before it.
  have h4 : SliceAt blob 4 _ := h.right
  have h6 : SliceAt blob 6 _ := h4.right
  have h8 : SliceAt blob 8 _ := h6.right
  have h12 : SliceAt blob 12 _ := h8.right
  have h16 : SliceAt blob 16 _ := h12.right
  have h24 : SliceAt blob 24 _ := h16.right
  have h32 : SliceAt blob 32 _ := h24.right
  have h36 : SliceAt blob 36 _ := h32.right
  have h40 : SliceAt blob 40 _ := h36.right
  have h44 : SliceAt blob 44 _ := h40.right
  have h48 : SliceAt blob 48 _ := h44.right
  have h52 : SliceAt blob 52 _ := h48.right
  rw [readHeader, readU32_slice h.left, readU16_slice h4.left, readU16_slice h6.left,
    readU32_slice h8.left, readU32_slice h12.left, readU64_slice h16.left, readU64_slice h24.left,
    readU32_slice h32.left, readU32_slice h36.left, readU32_slice h40.left, readU32_slice h44.left,
    readU32_slice h48.left, readU32_slice h52.left]
  have hhs : KSYM_HEADER_SIZE ≤ (BitVec.ofNat 16 KSYM_HEADER_SIZE).toNat := by decide
  dsimp only [guard]
  simp only [Option.bind_eq_bind, Option.bind_some, if_pos hsize, if_pos hhs, if_true]
  rfl

end Bongos.Core
