import Bongos.Compress.HuffmanCorrect

/-!
# The codes of a block and its tokens

`buildDynamicTrees` reads exactly the strings of the codes of a dynamic block
(`reads_buildDynamicTrees`), and `readToken` those of a token or of the end of the block
(`reads_readToken`).
-/

namespace Bongos.Compress

open List

variable {data : List Byte} {lens lens' cl lit dist : List ℕ} {h litTree distTree clTree : HuffTree}
  {total : ℕ} {w : List Bool}

/-! ## The lengths of the code-length codes -/

theorem getD_set (l : List ℕ) (k v j : ℕ) (hk : k < l.length) :
    (l.set k v).getD j 0 = if j = k then v else l.getD j 0 := by
  rw [getD_eq_getElem?_getD, getD_eq_getElem?_getD, getElem?_set]
  split_ifs with hkj hjk hjk
  · simp
  · exact absurd hkj.symm hjk
  · exact absurd hjk.symm hkj
  · rfl

/-- The loop sets the lengths that it reads, and leaves the others. -/
theorem reads_readClLengths {order : List ℕ} (hnodup : order.Nodup)
    (hlt : ∀ k ∈ order, k < lens.length) :
    Reads BitReader.bits (readClLengths order lens : BitM data (List ℕ)) fun cl w =>
      cl.length = lens.length ∧ (∀ k ∈ order, cl.getD k 0 < 2^3) ∧
        (∀ k ∉ order, cl.getD k 0 = lens.getD k 0) ∧
        w = order.flatMap fun k => lsbBits 3 (cl.getD k 0) := by
  induction order generalizing lens with
  | nil =>
    refine (reads_pure lens).congr fun cl w => ?_
    constructor
    · rintro ⟨rfl, rfl⟩
      simp
    · rintro ⟨hlen, -, hsame, rfl⟩
      refine ⟨ext_getElem hlen fun k hk hk' => ?_, rfl⟩
      have hget := hsame k not_mem_nil
      rwa [getD_eq_getElem _ _ hk, getD_eq_getElem _ _ hk'] at hget
  | cons k order ih =>
    obtain ⟨hk, hnodup'⟩ := nodup_cons.1 hnodup
    obtain ⟨hklt, hlt'⟩ := forall_mem_cons.1 hlt
    have hrest : ∀ v,
        Reads BitReader.bits (readClLengths order (lens.set k v) : BitM data (List ℕ)) _ :=
      fun v => ih hnodup' fun j hj => by
        rw [length_set]
        exact hlt' j hj
    refine ((reads_brBits 3).bind fun v _ _ => hrest v).congr fun cl w => ?_
    constructor
    · rintro ⟨v, _, _, ⟨hv, rfl⟩, ⟨hlen, hread, hsame, rfl⟩, rfl⟩
      have hget : cl.getD k 0 = v := by rw [hsame k hk, getD_set _ _ _ _ hklt, if_pos rfl]
      refine ⟨by rw [hlen, length_set], ?_, fun j hj => ?_, by rw [flatMap_cons, hget]⟩
      · exact forall_mem_cons.2 ⟨hget ▸ hv, hread⟩
      · obtain ⟨hjk, hj'⟩ := not_or.1 (mt mem_cons.2 hj)
        rw [hsame j hj', getD_set _ _ _ _ hklt, if_neg hjk]
    · rintro ⟨hlen, hread, hsame, rfl⟩
      obtain ⟨hkv, hread'⟩ := forall_mem_cons.1 hread
      refine ⟨cl.getD k 0, _, _, ⟨hkv, rfl⟩,
        ⟨by rw [hlen, length_set], hread', fun j hj => ?_, rfl⟩, flatMap_cons⟩
      rw [getD_set _ _ _ _ hklt]
      split_ifs with hjk
      · rw [hjk]
      · exact hsame j (mem_cons.not.2 (not_or.2 ⟨hjk, hj⟩))

/-! ## Runs of lengths -/

theorem repeatLength_eq_some {rep v : ℕ} : repeatLength lens total rep v = some lens' ↔
    lens' = lens ++ List.replicate rep v ∧ lens'.length ≤ total := by
  unfold repeatLength
  split_ifs with hlong
  · constructor
    · exact fun h => (nomatch h)
    · rintro ⟨rfl, hle⟩
      rw [length_append, length_replicate] at hle
      omega
  · rw [Option.some.injEq]
    constructor
    · rintro rfl
      rw [length_append, length_replicate]
      exact ⟨rfl, by omega⟩
    · exact fun h => h.1.symm

/-- A number of extra bits, and then a repetition. -/
theorem reads_repeat (n base v : ℕ) : Reads BitReader.bits
    ((do let rep ← brBits n
         StateT.lift (repeatLength lens total (rep + base) v)) : BitM data (List ℕ))
    fun lens' w => ∃ extra < 2^n, lens' = lens ++ List.replicate (extra + base) v ∧
      lens'.length ≤ total ∧ w = lsbBits n extra := by
  refine ((reads_brBits n).bind fun rep _ _ => reads_lift _).congr fun lens' w => ?_
  constructor
  · rintro ⟨rep, _, _, ⟨hrep, rfl⟩, ⟨hrepeat, rfl⟩, rfl⟩
    obtain ⟨hlens, htotal⟩ := repeatLength_eq_some.1 hrepeat
    exact ⟨rep, hrep, hlens, htotal, append_nil _⟩
  · rintro ⟨extra, hextra, hlens, htotal, rfl⟩
    exact ⟨extra, _, [], ⟨hextra, rfl⟩, ⟨repeatLength_eq_some.2 ⟨hlens, htotal⟩, rfl⟩,
      (append_nil _).symm⟩

/-- A round reads one run. -/
theorem reads_readRun (hb : huffBuild cl true = some clTree) (hlt : lens.length < total) :
    Reads BitReader.bits (readRun clTree total lens : BitM data (List ℕ)) fun lens' w =>
      ∃ r, RunBits cl r w ∧ r.expand lens = some lens' ∧ lens'.length ≤ total := by
  refine ((reads_huffDecode hb).bind fun sym _ _ => Reads.ite (fun _ => reads_pure _) fun _ =>
    Reads.ite (fun _ => Reads.ite (fun _ => reads_failure) fun _ => reads_repeat 2 3 _) fun _ =>
      Reads.ite (fun _ => reads_repeat 3 3 0) fun _ =>
        Reads.ite (fun _ => reads_repeat 7 11 0) fun _ => reads_failure).congr fun lens' w => ?_
  constructor
  · rintro ⟨sym, w1, w2, hcode, hcases, rfl⟩
    rcases hcases with ⟨hsym, rfl, rfl⟩ |
      ⟨-, ⟨rfl, ⟨-, hno⟩ | ⟨hne, extra, hextra, rfl, htotal, rfl⟩⟩ |
        ⟨-, ⟨rfl, extra, hextra, rfl, htotal, rfl⟩ |
          ⟨-, ⟨rfl, extra, hextra, rfl, htotal, rfl⟩ | ⟨-, hno⟩⟩⟩⟩
    · refine ⟨.one sym, ⟨hsym, by rwa [append_nil]⟩, rfl, ?_⟩
      rw [length_append, length_singleton]
      exact hlt
    · exact hno.elim
    · exact ⟨.again extra, ⟨w1, hextra, hcode, rfl⟩, if_neg hne, htotal⟩
    · exact ⟨.zeros extra, ⟨w1, hextra, hcode, rfl⟩, rfl, htotal⟩
    · exact ⟨.manyZeros extra, ⟨w1, hextra, hcode, rfl⟩, rfl, htotal⟩
    · exact hno.elim
  · rintro ⟨r, hbits, hexpand, htotal⟩
    cases r with
    | one l =>
      refine ⟨l, w, [], hbits.2, .inl ⟨hbits.1, (Option.some.inj hexpand).symm, rfl⟩,
        (append_nil w).symm⟩
    | again extra =>
      obtain ⟨w1, hextra, hcode, rfl⟩ := hbits
      rw [LengthRun.expand] at hexpand
      split_ifs at hexpand with hne
      exact ⟨16, w1, _, hcode, .inr ⟨by decide, .inl ⟨rfl, .inr ⟨hne, extra, hextra,
        (Option.some.inj hexpand).symm, htotal, rfl⟩⟩⟩, rfl⟩
    | zeros extra =>
      obtain ⟨w1, hextra, hcode, rfl⟩ := hbits
      exact ⟨17, w1, _, hcode, .inr ⟨by decide, .inr ⟨by decide, .inl ⟨rfl, extra, hextra,
        (Option.some.inj hexpand).symm, htotal, rfl⟩⟩⟩, rfl⟩
    | manyZeros extra =>
      obtain ⟨w1, hextra, hcode, rfl⟩ := hbits
      exact ⟨18, w1, _, hcode,
        .inr ⟨by decide, .inr ⟨by decide, .inr ⟨by decide,
          .inl ⟨rfl, extra, hextra, (Option.some.inj hexpand).symm, htotal, rfl⟩⟩⟩⟩, rfl⟩

/-- A run adds a length. -/
theorem LengthRun.length_expand {r : LengthRun} (hr : r.expand lens = some lens') :
    lens.length < lens'.length := by
  cases r with
  | again extra =>
    rw [LengthRun.expand] at hr
    split_ifs at hr
    cases hr
    simp
  | _ =>
    cases hr
    simp

variable {runs : List LengthRun}

theorem length_foldlM_expand (hr : runs.foldlM LengthRun.expand lens = some lens') :
    lens.length + runs.length ≤ lens'.length := by
  induction runs generalizing lens with
  | nil =>
    cases hr
    exact le_rfl
  | cons r runs ih =>
    obtain ⟨lens1, hone, hrest⟩ := Option.bind_eq_some_iff.1 hr
    have hlt := LengthRun.length_expand hone
    have hle := ih hrest
    rw [length_cons]
    omega

/-- The loop reads runs until there are `total` lengths. -/
theorem reads_readLengths (hb : huffBuild cl true = some clTree) {fuel : ℕ}
    (hle : lens.length ≤ total) (hfuel : total < lens.length + fuel) :
    Reads BitReader.bits (readLengths clTree total fuel lens : BitM data (List ℕ)) fun lens' w =>
      ∃ runs, RunsBits cl runs w ∧ runs.foldlM LengthRun.expand lens = some lens' ∧
        lens'.length = total := by
  induction fuel generalizing lens with
  | zero => omega
  | succ fuel ih =>
    rw [readLengths]
    by_cases hfull : lens.length ≥ total
    · rw [if_pos hfull]
      refine (reads_pure lens).congr fun lens' w => ?_
      constructor
      · rintro ⟨rfl, rfl⟩
        exact ⟨[], rfl, rfl, by omega⟩
      · rintro ⟨runs, hbits, hruns, hlen⟩
        -- A further run would add a length.
        have hnil := length_foldlM_expand hruns
        obtain rfl : runs = [] := length_eq_zero_iff.1 (by omega)
        cases hruns
        exact ⟨rfl, hbits⟩
    · rw [if_neg hfull]
      have hnext : ∀ lens1 w,
          (∃ r, RunBits cl r w ∧ r.expand lens = some lens1 ∧ lens1.length ≤ total) →
          Reads BitReader.bits (readLengths clTree total fuel lens1 : BitM data (List ℕ))
            fun lens' w => ∃ runs, RunsBits cl runs w ∧
              runs.foldlM LengthRun.expand lens1 = some lens' ∧ lens'.length = total := by
        rintro lens1 w ⟨r, -, hr, hle1⟩
        have hlt := LengthRun.length_expand hr
        exact ih hle1 (by omega)
      refine ((reads_readRun hb (by omega)).bind hnext).congr fun lens' w => ?_
      constructor
      · rintro ⟨lens1, w1, w2, ⟨r, hr, hexpand, -⟩, ⟨runs, hbits, hruns, hlen⟩, rfl⟩
        refine ⟨r :: runs, ⟨w1, w2, hr, hbits, rfl⟩, ?_, hlen⟩
        rw [foldlM_cons, hexpand]
        exact hruns
      · rintro ⟨runs, hbits, hruns, hlen⟩
        cases runs with
        | nil =>
          cases hruns
          omega
        | cons r runs =>
          obtain ⟨w1, w2, hr, hrest, rfl⟩ := hbits
          obtain ⟨lens1, hexpand, hruns'⟩ := Option.bind_eq_some_iff.1 hruns
          have hle1 := length_foldlM_expand hruns'
          exact ⟨lens1, w1, w2, ⟨r, hr, hexpand, by omega⟩, ⟨runs, hrest, hruns', hlen⟩, rfl⟩

/-! ## The codes of a dynamic block -/

theorem mem_clcOrder : ∀ k, k ∈ CLC_ORDER ↔ k < 19 := by
  intro k
  constructor
  · exact fun hk => (by decide : ∀ k ∈ CLC_ORDER, k < 19) k hk
  · exact fun hk => (by decide : ∀ k < 19, k ∈ CLC_ORDER) k hk

/-- The first lengths are read, and the others are 0. -/
theorem reads_clLengths (n : ℕ) : Reads BitReader.bits
    (readClLengths (CLC_ORDER.take n) (List.replicate 19 0) : BitM data (List ℕ)) fun cl w =>
      cl.length = 19 ∧ (∀ l ∈ cl, l < 8) ∧ (∀ k ∈ CLC_ORDER.drop n, cl.getD k 0 = 0) ∧
        w = (CLC_ORDER.take n).flatMap fun k => lsbBits 3 (cl.getD k 0) := by
  have hnodup : CLC_ORDER.Nodup := by decide
  have hdisj : ∀ k ∈ CLC_ORDER.drop n, k ∉ CLC_ORDER.take n := fun k hk hk' =>
    disjoint_take_drop hnodup le_rfl hk' hk
  have hzero : ∀ k, (List.replicate 19 0).getD k 0 = 0 := fun k => by
    rw [getD_eq_getElem?_getD, getElem?_replicate]
    split_ifs <;> rfl
  refine (reads_readClLengths (hnodup.sublist (take_sublist n _)) fun k hk => ?_).congr
    fun cl w => ?_
  · exact (mem_clcOrder k).1 (mem_of_mem_take hk)
  rw [length_replicate]
  refine and_congr_right fun hlen => ?_
  rw [← and_assoc, ← and_assoc]
  refine and_congr_left fun _ => ?_
  constructor
  · rintro ⟨hread, hsame⟩
    refine ⟨fun l hl => ?_, fun k hk => (hsame k (hdisj k hk)).trans (hzero k)⟩
    obtain ⟨k, hk, rfl⟩ := getElem_of_mem hl
    rw [← getD_eq_getElem cl 0 hk]
    by_cases hmem : k ∈ CLC_ORDER.take n
    · exact hread k hmem
    · rw [hsame k hmem, hzero]
      decide
  · rintro ⟨hsmall, hrest⟩
    refine ⟨fun k hk => ?_, fun k hk => ?_⟩
    · have hk' := (mem_clcOrder k).1 (mem_of_mem_take hk)
      rw [getD_eq_getElem cl 0 (by omega)]
      exact hsmall _ (getElem_mem _)
    · rw [hzero]
      by_cases hlt : k < 19
      · have hmem := (mem_clcOrder k).2 hlt
        rw [← take_append_drop n CLC_ORDER, mem_append] at hmem
        exact hrest k (hmem.resolve_left hk)
      · exact getD_eq_default _ _ (by omega)

/-- The codes of a dynamic block are those that `huffBuild` accepts, with an end of the block. -/
theorem dynamicCodes_iff (hlit : 257 ≤ lit.length) (hlit' : lit.length ≤ 286)
    (hdist : 1 ≤ dist.length) (hdist' : dist.length ≤ 30) :
    DynamicCodes lit dist ↔ lit.getD 256 0 ≠ 0 ∧ (∃ h, huffBuild lit false = some h) ∧
      ∃ h, huffBuild dist false = some h := by
  rw [huffBuild_isSome_iff, huffBuild_isSome_iff]
  constructor
  · intro hd
    refine ⟨hd.hasEnd.2, ⟨by omega, fun l hl => hd.short l (mem_append_left _ hl), ?_⟩, by omega,
      fun l hl => hd.short l (mem_append_right _ hl), ?_⟩
    · exact .inr (hd.lit_code.imp_right fun hs => ⟨rfl, hs⟩)
    · rcases hd.dist_code with hfull | hsingle | hzero
      · exact .inr (.inl hfull)
      · exact .inr (.inr ⟨rfl, hsingle⟩)
      · exact .inl hzero
  · rintro ⟨hend, ⟨-, hshort, hcode⟩, -, hshort', hcode'⟩
    refine ⟨hlit', hdist, hdist', fun l hl => ?_, ⟨by omega, hend⟩, ?_, ?_⟩
    · exact (mem_append.1 hl).elim (hshort l) (hshort' l)
    · rcases hcode with hzero | hfull | ⟨-, hsingle⟩
      · refine absurd (hzero _ ?_) hend
        rw [getD_eq_getElem lit 0 (by omega)]
        exact getElem_mem _
      · exact .inl hfull
      · exact .inr hsingle
    · rcases hcode' with hzero | hfull | ⟨-, hsingle⟩
      · exact .inr (.inr hzero)
      · exact .inl hfull
      · exact .inr (.inl hsingle)

/-- A code-length code that was used is complete. -/
theorem huffBuild_cl_iff (hlen : cl.length = 19) (hsmall : ∀ l ∈ cl, l < 8)
    (hused : ∃ l ∈ cl, l ≠ 0) : (∃ h, huffBuild cl true = some h) ↔ Complete cl 15 := by
  rw [huffBuild_isSome_iff]
  constructor
  · rintro ⟨-, -, hzero | hfull | ⟨hno, -⟩⟩
    · obtain ⟨l, hl, hne⟩ := hused
      exact absurd (hzero l hl) hne
    · exact hfull
    · cases hno
  · exact fun hfull => ⟨by omega, fun l hl => (hsmall l hl).le.trans (by decide), .inr (.inl hfull)⟩

theorem RunsBits.exists_ne_zero (hbits : RunsBits cl runs w) (hne : runs ≠ []) :
    ∃ l ∈ cl, l ≠ 0 := by
  have hcode : ∀ {sym : ℕ}, HasCode cl sym → ∃ l ∈ cl, l ≠ 0 := fun {sym} hc => by
    refine ⟨_, ?_, hc.2⟩
    rw [getD_eq_getElem cl 0 hc.1]
    exact getElem_mem _
  cases runs with
  | nil => exact absurd rfl hne
  | cons r runs =>
    obtain ⟨w1, w2, hr, -, -⟩ := hbits
    cases r with
    | one l => exact hcode hr.2.1
    | again extra | zeros extra | manyZeros extra =>
      obtain ⟨_, -, hr', -⟩ := hr
      exact hcode hr'.1

/-- `buildDynamicTrees` reads exactly the codes that a dynamic block may have. -/
theorem reads_buildDynamicTrees :
    Reads BitReader.bits (buildDynamicTrees : BitM data (HuffTree × HuffTree)) fun t w =>
      ∃ lit dist, DynamicCodes lit dist ∧ CodesBits lit dist w ∧ huffBuild lit false = some t.1 ∧
        huffBuild dist false = some t.2 := by
  refine ((reads_brBits 5).bind fun hlitField _ _ => (reads_brBits 5).bind fun hdistField _ _ =>
    (reads_brBits 4).bind fun hclenField _ _ => Reads.ite (fun _ => reads_failure) fun _ =>
    (reads_clLengths (hclenField + 4)).bind fun cl _ _ =>
    (reads_lift (huffBuild cl true)).bind fun clTree _ hb =>
    (reads_readLengths hb.1 (Nat.zero_le _) (by rw [length_nil]; omega)).bind fun lengths _ _ =>
    Reads.ite (fun _ => reads_failure) fun _ => (reads_lift _).bind fun lit _ _ =>
    (reads_lift _).bind fun dist _ _ => reads_pure (lit, dist)).congr fun t w => ?_
  constructor
  · rintro ⟨hlitField, _, _, ⟨hlitLt, rfl⟩, ⟨hdistField, _, _, ⟨hdistLt, rfl⟩, ⟨hclenField, _, _,
      ⟨hclenLt, rfl⟩,
      ⟨-, hno⟩ | ⟨hok, cl, _, _, ⟨hclLen, hclSmall, hclRest, rfl⟩, ⟨clTree, _, _, ⟨hcl, rfl⟩,
      ⟨lengths, w1, _, ⟨runs, hbits, hruns, hlen⟩, ⟨-, hno⟩ | ⟨hend, litTree, _, _, ⟨hlit, rfl⟩,
        ⟨distTree, _, _, ⟨hdist, rfl⟩, ⟨rfl, rfl⟩, rfl⟩, rfl⟩, rfl⟩, rfl⟩, rfl⟩, rfl⟩, rfl⟩, rfl⟩
    · exact hno.elim
    · exact hno.elim
    · have hdrop : (lengths.drop (hlitField + 257)).take (hdistField + 1) =
          lengths.drop (hlitField + 257) :=
        take_of_length_le (by rw [length_drop, hlen]; omega)
      have hlitLen : (lengths.take (hlitField + 257)).length = hlitField + 257 := by
        rw [length_take, hlen]
        omega
      have hdistLen : (lengths.drop (hlitField + 257)).length = hdistField + 1 := by
        rw [length_drop, hlen]
        omega
      have hget : (lengths.take (hlitField + 257)).getD 256 0 = lengths.getD 256 0 := by
        rw [getD_eq_getElem?_getD, getElem?_take_of_lt (by omega), getD_eq_getElem?_getD]
      have hne : runs ≠ [] := by
        rintro rfl
        cases hruns
        rw [length_nil] at hlen
        omega
      rw [hdrop] at hdist
      refine ⟨_, _, (dynamicCodes_iff (by omega) (by omega) (by omega) (by omega)).2
        ⟨hget ▸ hend, ⟨_, hlit⟩, _, hdist⟩,
        ⟨cl, hclenField + 4, runs, w1, hclLen, hclSmall, ?_, by omega, by omega, hclRest, ?_,
          hbits, ?_⟩, hlit, hdist⟩
      · exact (huffBuild_cl_iff hclLen hclSmall (hbits.exists_ne_zero hne)).1 ⟨clTree, hcl⟩
      · rw [hruns, take_append_drop]
      · rw [hlitLen, hdistLen, Nat.add_sub_cancel, Nat.add_sub_cancel, Nat.add_sub_cancel]
        simp only [append_nil, nil_append]
  · rintro ⟨lit, dist, hd,
      ⟨cl, hclen, runs, w1, hclLen, hclSmall, hfull, hclen4, hclen19, hclRest, hruns, hbits, rfl⟩,
        hlit, hdist⟩
    have hend := hd.hasEnd.1
    have hlitLe := hd.lit_le
    have hdistPos := hd.dist_pos
    have hdistLe := hd.dist_le
    have hne : runs ≠ [] := by
      rintro rfl
      have hnil := congrArg List.length (Option.some.inj hruns)
      rw [length_nil, length_append] at hnil
      omega
    obtain ⟨clTree, hcl⟩ := (huffBuild_cl_iff hclLen hclSmall (hbits.exists_ne_zero hne)).2 hfull
    have hlitLen : lit.length - 257 + 257 = lit.length := by omega
    have hdistLen : dist.length - 1 + 1 = dist.length := by omega
    have hclenEq : hclen - 4 + 4 = hclen := by omega
    have hget : (lit ++ dist).getD 256 0 = lit.getD 256 0 := getD_append _ _ _ _ hend
    refine ⟨lit.length - 257, _, _, ⟨by omega, rfl⟩,
      ⟨dist.length - 1, _, _, ⟨by omega, rfl⟩, ⟨hclen - 4, _, _, ⟨by omega, rfl⟩,
      .inr ⟨by omega, cl, _, _, ⟨hclLen, hclSmall, hclenEq.symm ▸ hclRest, rfl⟩, ⟨clTree, [], _,
      ⟨hcl, rfl⟩, ⟨lit ++ dist, w1, [], ⟨runs, hbits, hruns, ?_⟩, .inr ⟨?_, t.1, [], [], ⟨?_, rfl⟩,
        ⟨t.2, [], [], ⟨?_, rfl⟩, ⟨rfl, rfl⟩, rfl⟩, rfl⟩, rfl⟩, rfl⟩, rfl⟩, rfl⟩, rfl⟩, ?_⟩
    · rw [length_append]
      omega
    · rw [hget]
      exact hd.hasEnd.2
    · rw [hlitLen, take_left, hlit]
    · rw [hlitLen, hdistLen, drop_left, take_length, hdist]
    · rw [hclenEq, nil_append, append_nil]

/-! ## Tokens -/

/-- `readToken` reads exactly the tokens and the end of the block. -/
theorem reads_readToken (hlit : huffBuild lit false = some litTree)
    (hdist : huffBuild dist false = some distTree) :
    Reads BitReader.bits (readToken litTree distTree : BitM data (Option Token)) fun t w =>
      t.elim (CodeBits lit 256 w) fun t => TokenBits true lit dist t w := by
  refine ((reads_huffDecode hlit).bind fun sym _ _ => Reads.ite (fun _ => reads_pure _) fun _ =>
    Reads.ite (fun _ => reads_pure _) fun _ => Reads.ite (fun _ => reads_failure) fun _ =>
    (reads_brBits _).bind fun extra _ _ => (reads_huffDecode hdist).bind fun dsym _ _ =>
    Reads.ite (fun _ => reads_failure) fun _ => (reads_brBits _).bind fun dextra _ _ =>
    reads_pure _).congr fun t w => ?_
  constructor
  · rintro ⟨sym, w1, _, hcode,
      ⟨hsym, rfl, rfl⟩ | ⟨hsym, ⟨rfl, rfl, rfl⟩ | ⟨hne, ⟨-, hno⟩ | ⟨hlsym, extra, _, _, ⟨hextra,
      hw⟩, ⟨dsym, w2, _, hdcode, ⟨-, hno⟩ | ⟨hdsym, dextra, _, _, ⟨hdextra, hw'⟩, ⟨rfl, rfl⟩, rfl⟩,
        rfl⟩, rfl⟩⟩⟩, rfl⟩
    · rw [append_nil]
      show CodeBits lit (BitVec.ofNat 8 sym).toNat w1
      rwa [BitVec.toNat_ofNat, Nat.mod_eq_of_lt hsym]
    · rw [append_nil]
      exact hcode
    · exact hno.elim
    · exact hno.elim
    · obtain ⟨hle, hlb⟩ := length_tables (sym - 257) (by omega)
      obtain ⟨hde, hdb⟩ := dist_tables dsym (by omega)
      rw [hle] at hextra
      rw [hde] at hdextra
      refine ⟨sym - 257, extra, dsym, dextra, w1, w2,
        ⟨by omega, hextra, by rw [hlb], fun h => nomatch h⟩, ⟨by omega, hdextra, by rw [hdb]⟩, ?_,
          hdcode, ?_⟩
      · rwa [show 257 + (sym - 257) = sym by omega]
      · rw [hw, hw', hle, hde, append_nil]
  · cases t with
    | none =>
      intro hcode
      exact ⟨256, w, [], hcode, .inr ⟨by decide, .inl ⟨rfl, rfl, rfl⟩⟩, (append_nil w).symm⟩
    | some t =>
      cases t with
      | lit b =>
        intro hcode
        refine ⟨b.toNat, w, [], hcode, .inl ⟨b.isLt, ?_, rfl⟩, (append_nil w).symm⟩
        rw [BitVec.ofNat_toNat, BitVec.setWidth_eq]
      | copy length distance =>
        rintro ⟨ls, le, ds, de, w1, w2, ⟨hls, hle, rfl, -⟩, ⟨hds, hde, rfl⟩, hcode, hdcode, rfl⟩
        obtain ⟨hle', hlb⟩ := length_tables ls hls
        obtain ⟨hde', hdb⟩ := dist_tables ds hds
        have hsub : 257 + ls - 257 = ls := Nat.add_sub_cancel_left ..
        refine ⟨257 + ls, w1, _, hcode, .inr ⟨by omega, .inr ⟨by omega, .inr ⟨by omega, le, _, _,
          ⟨?_, rfl⟩, ⟨ds, w2, _, hdcode, .inr ⟨by omega, de, _, [], ⟨?_, rfl⟩, ⟨?_, rfl⟩, rfl⟩,
            rfl⟩, rfl⟩⟩⟩, ?_⟩
        · rwa [hsub, hle']
        · rwa [hde']
        · rw [hsub, hlb, hdb]
        · rw [hsub, hle', hde', append_nil]

end Bongos.Compress
