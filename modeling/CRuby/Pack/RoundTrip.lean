import CRuby.Pack.Groups

/-!
# `unpack` inverts `pack` for the text directives

For every byte string `b` and every count `n`, unpacking `pack("m#{n}")` with `m`,
`pack("u#{n}")` with `u` and `pack("M#{n}")` with `M` gives `b` back (`unpack_inverts_pack`).

The proofs follow the encoders:

* **`m`.** The lenient decoder reads the characters of an encoded body back, and after a body
  whose last group is full it goes on with what follows (`unpackMLenientLoop_encodesBody`).
  Every line but the last holds a multiple of three bytes, because the line length is one
  (`LineLen.dvd`), and the newline after it is skipped like every byte that is not a base64
  character. A padded group can only end the last line.
* **`u`.** A line of `t` bytes, `0 < t ≤ 63`, starts with a length character that the decoder
  reads back as `t`, and its groups decode to `t` (`uuDecodeHunks_encodesBody`). The decoder
  clips the bytes to three quarters of the input, which is never less than the bytes encoded
  (`four_mul_length_le_encodesLines`).
* **`M`.** `qpencode` writes, for each byte, its escape `=XX` or the byte itself, and soft line
  breaks `=\n` (before a newline after a space or a tab, after a long line, at the end); the
  decoder reads each of these back independently of what precedes it
  (`unpackM_qpencodeStep`).
-/

namespace CRuby.Pack

/-! ## Lengths -/

theorem length_encodesBody (trans : List UInt8) (pad : UInt8) (x : List UInt8) :
    (encodesBody trans pad x).length = 4 * ((x.length + 2) / 3) := by
  fun_induction encodesBody trans pad x with
  | case1 s0 s1 s2 s ih =>
    simp only [List.length_append, List.length_cons, List.length_nil, ih]
    omega
  | case2 s0 s1 => simp
  | case3 s0 => simp
  | case4 => simp

/-! ## `m` -/

/-- The lenient decoder reads an encoded body back; it goes on after it when its last group is
full, and stops at the padding otherwise. -/
theorem unpackMLenientLoop_encodesBody (x rest : List UInt8) :
    unpackMLenientLoop .readA (encodesBody b64Table '='.toUInt8 x ++ rest) =
      x ++ (if x.length % 3 = 0 then unpackMLenientLoop .readA rest else []) := by
  fun_induction encodesBody b64Table '='.toUInt8 x with
  | case1 s0 s1 s2 s ih =>
    simp only [List.cons_append, List.nil_append]
    rw [unpackMLenientLoop_readA _ (b64Xtable_b64Table (sextet0_lt _)),
      unpackMLenientLoop_readB _ _ (b64Xtable_b64Table (sextet1_lt _ _)),
      unpackMLenientLoop_readC _ _ _ (b64Xtable_b64Table (sextet2_lt _ _)),
      unpackMLenientLoop_readD _ _ _ _ (b64Xtable_b64Table (sextet3_lt _)), hunk_sextets, ih]
    have h3 : (s.length + 1 + 1 + 1) % 3 = s.length % 3 := by omega
    simp only [List.length_cons, h3, List.cons_append, List.nil_append]
  | case2 s0 s1 =>
    -- the padding stops the fourth character's loop
    simp only [List.cons_append, List.nil_append]
    rw [unpackMLenientLoop_readA _ (b64Xtable_b64Table (sextet0_lt _)),
      unpackMLenientLoop_readB _ _ (b64Xtable_b64Table (sextet1_lt _ _)),
      unpackMLenientLoop_readC _ _ _ (b64Xtable_b64Table (sextet2_lt _ _)),
      unpackMLenientLoop_pad _ _ (by simp [B64Stage.flush]) b64Xtable_pad]
    simp only [B64Stage.flush, sextet0_shiftLeft_or, sextet1_shiftLeft_or]
    rfl
  | case3 s0 =>
    simp only [List.cons_append, List.nil_append]
    rw [unpackMLenientLoop_readA _ (b64Xtable_b64Table (sextet0_lt _)),
      unpackMLenientLoop_readB _ _ (b64Xtable_b64Table (sextet1_lt _ _)),
      unpackMLenientLoop_pad _ _ (by simp [B64Stage.flush]) b64Xtable_pad]
    simp only [B64Stage.flush, sextet0_shiftLeft_or]
    rfl
  | case4 => simp

theorem encodes_m (s : List UInt8) (tailLf : Bool) :
    encodes s .m tailLf =
      encodesBody b64Table '='.toUInt8 s ++ (if tailLf then ['\n'.toUInt8] else []) := by
  simp [encodes]

/-- The lines of `m` are read back. -/
theorem unpackMLenient_encodesLines (L : LineLen) (x : List UInt8) :
    unpackMLenient (encodesLines .m L x) = x := by
  fun_induction encodesLines .m L x with
  | case1 => rfl
  | case2 x _ ih =>
    simp only [unpackMLenient] at ih ⊢
    rw [encodes_m, if_pos rfl, List.append_assoc, List.singleton_append,
      unpackMLenientLoop_encodesBody, unpackMLenientLoop_skip _ b64Xtable_newline, ih]
    -- a line that is not a multiple of three bytes is shorter than the line length: the last
    split
    · exact List.take_append_drop _ _
    · have hlt : x.length < L.val := by
        have := L.dvd
        simp only [List.length_take] at *
        omega
      rw [List.take_of_length_le hlt.le, List.append_nil]

/-- **`m` round trip.** -/
theorem unpackMLenient_packPack (n : ℤ) (b : List UInt8) :
    unpackMLenient (packPack .m n b) = b := by
  simp only [packPack, and_true]
  split
  · rw [unpackMLenient, encodes_m, if_neg Bool.false_ne_true, List.append_nil,
      ← List.append_nil (encodesBody _ _ b), unpackMLenientLoop_encodesBody,
      unpackMLenientLoop_nil]
    simp [B64Stage.flush]
  · exact unpackMLenient_encodesLines _ b

/-! ## `u` -/

theorem uuDecodeHunks_zero (s : List UInt8) : uuDecodeHunks 0 s = ([], s) := by
  rw [uuDecodeHunks, if_pos rfl]

/-- A turn of the inner loop of `u`: one group, then the bytes left. -/
theorem uuDecodeHunks_of_group {len : ℕ} (hlen : len ≠ 0) {s h s' : List UInt8}
    (hg : uuGetGroup s = (h, s')) :
    uuDecodeHunks len s =
      (h.take (min len 3) ++ (uuDecodeHunks (len - min len 3) s').1,
        (uuDecodeHunks (len - min len 3) s').2) := by
  rw [uuDecodeHunks, if_neg hlen, hg]

/-- The groups of a line of `u` decode to its bytes. -/
theorem uuDecodeHunks_encodesBody (x rest : List UInt8) :
    uuDecodeHunks x.length (encodesBody uuTable '\x60'.toUInt8 x ++ rest) = (x, rest) := by
  fun_induction encodesBody uuTable '\x60'.toUInt8 x with
  | case1 s0 s1 s2 s ih =>
    -- a full group: three bytes, and the rest of the line after it
    have hg : uuGetGroup ([uuTable.getD (sextet0 s0).toNat 0,
        uuTable.getD (sextet1 s0 s1).toNat 0, uuTable.getD (sextet2 s1 s2).toNat 0,
        uuTable.getD (sextet3 s2).toNat 0] ++
          encodesBody uuTable '\x60'.toUInt8 s ++ rest) =
        ([s0, s1, s2], encodesBody uuTable '\x60'.toUInt8 s ++ rest) := by
      simp only [List.cons_append, List.nil_append, uuGetGroup,
        uuGetc_uuTable (sextet0_lt _), uuGetc_uuTable (sextet1_lt _ _),
        uuGetc_uuTable (sextet2_lt _ _), uuGetc_uuTable (sextet3_lt _), hunk_sextets]
    have hlen :
        (s0 :: s1 :: s2 :: s).length - min (s0 :: s1 :: s2 :: s).length 3 = s.length := by
      simp only [List.length_cons]
      omega
    rw [uuDecodeHunks_of_group (by simp) hg, hlen, ih]
    simp
  | case2 s0 s1 =>
    have h := hunk_sextets s0 s1 0
    rw [sextet3_zero] at h
    have hg : uuGetGroup ([uuTable.getD (sextet0 s0).toNat 0,
        uuTable.getD (sextet1 s0 s1).toNat 0, uuTable.getD (sextet2 s1 0).toNat 0,
        '\x60'.toUInt8] ++ rest) =
        (hunk (sextet0 s0) (sextet1 s0 s1) (sextet2 s1 0) 0, rest) := by
      simp only [List.cons_append, List.nil_append, uuGetGroup, uuGetc_uuTable (sextet0_lt _),
        uuGetc_uuTable (sextet1_lt _ _), uuGetc_uuTable (sextet2_lt _ _), uuGetc_padding]
    rw [uuDecodeHunks_of_group (by simp) hg, h]
    simp [uuDecodeHunks_zero]
  | case3 s0 =>
    have h := hunk_sextets s0 0 0
    rw [sextet3_zero, sextet2_zero_zero] at h
    have hg : uuGetGroup ([uuTable.getD (sextet0 s0).toNat 0, uuTable.getD (sextet1 s0 0).toNat 0,
        '\x60'.toUInt8, '\x60'.toUInt8] ++ rest) =
        (hunk (sextet0 s0) (sextet1 s0 0) 0 0, rest) := by
      simp only [List.cons_append, List.nil_append, uuGetGroup, uuGetc_uuTable (sextet0_lt _),
        uuGetc_uuTable (sextet1_lt _ _), uuGetc_padding]
    rw [uuDecodeHunks_of_group (by simp) hg, h]
    simp [uuDecodeHunks_zero]
  | case4 => simp [uuDecodeHunks_zero]

/-- The length character of a line of `n` bytes, `0 < n ≤ 63`, starts a line and is read back
as `n`. -/
theorem uuLengthChar :
    ∀ n < 64, 0 < n → ' '.toUInt8 < UInt8.ofNat n + ' '.toUInt8 ∧
      UInt8.ofNat n + ' '.toUInt8 < 'a'.toUInt8 ∧
      ((UInt8.ofNat n + ' '.toUInt8 - ' '.toUInt8) &&& 0o77).toNat = n := by
  decide

theorem uuSkipEol_newline (s : List UInt8) : uuSkipEol ('\n'.toUInt8 :: s) = s := by
  have hcr : '\n'.toUInt8 ≠ '\r'.toUInt8 := by decide
  simp [uuSkipEol, skipIf, hcr]

theorem encodes_u (s : List UInt8) :
    encodes s .u true =
      (UInt8.ofNat s.length + ' '.toUInt8) ::
        (encodesBody uuTable '\x60'.toUInt8 s ++ ['\n'.toUInt8]) := by
  simp [encodes]

/-- One line of `u` is read back when the buffer has room for it. -/
theorem unpackULines_encodes {buflen total : ℕ} (t rest : List UInt8) (h0 : 0 < t.length)
    (h63 : t.length ≤ 63) (hroom : total + t.length ≤ buflen) :
    unpackULines buflen total (encodes t .u true ++ rest) =
      t ++ unpackULines buflen (total + t.length) rest := by
  obtain ⟨hlo, hhi, hlen⟩ := uuLengthChar t.length (by omega) h0
  rw [encodes_u, List.cons_append, unpackULines, if_pos ⟨hlo, hhi⟩]
  simp only [hlen, gt_iff_lt, Nat.not_lt.mpr hroom, if_false, List.append_assoc,
    List.singleton_append, uuDecodeHunks_encodesBody, uuSkipEol_newline]

/-- The lines of `u` are read back when the buffer has room for all their bytes. -/
theorem unpackULines_encodesLines (L : LineLen) (hL : L.val ≤ 63) (x : List UInt8)
    {buflen : ℕ} (total : ℕ) (hroom : total + x.length ≤ buflen) :
    unpackULines buflen total (encodesLines .u L x) = x := by
  fun_induction encodesLines .u L x generalizing total with
  | case1 => simp [unpackULines]
  | case2 x hx ih =>
    have hpos := L.pos
    have hne : x.length ≠ 0 := by simpa using hx
    rw [unpackULines_encodes _ _ (by simp; omega) (by simp; omega) (by simp; omega),
      ih (total + (x.take L.val).length) (by simp; omega), List.take_append_drop]

/-- Every line of `t` bytes takes `2 + 4 * ⌈t / 3⌉` characters, so the text is at least four
thirds of the bytes. -/
theorem four_mul_length_le_encodesLines (L : LineLen) (x : List UInt8) :
    4 * x.length ≤ 3 * (encodesLines .u L x).length := by
  fun_induction encodesLines .u L x with
  | case1 => simp
  | case2 x _ ih =>
    have hsplit := congrArg List.length (List.take_append_drop L.val x)
    simp only [List.length_append, encodes_u, List.length_cons, length_encodesBody] at hsplit ⊢
    omega

/-- The line length of `u` is at most 63. -/
theorem packLineLen_u_le (n : ℤ) : (packLineLen .u n).val ≤ 63 := by
  unfold packLineLen
  split_ifs with h1 h2
  · simp
  · simp
  · simp only [and_true, not_lt] at h2
    dsimp only
    omega

/-- **`u` round trip.** -/
theorem unpackU_packPack (n : ℤ) (b : List UInt8) : unpackU (packPack .u n b) = b := by
  simp only [packPack, reduceCtorEq, and_false, if_false]
  have h := four_mul_length_le_encodesLines (packLineLen .u n) b
  exact unpackULines_encodesLines _ (packLineLen_u_le n) b 0 (by omega)

/-! ## `M` -/

theorem unpackM_cons_of_ne {c : UInt8} (hc : c ≠ '='.toUInt8) (s : List UInt8) :
    unpackM (c :: s) = c :: unpackM s := by
  rw [unpackM.eq_def]
  simp only [if_neg hc]

/-- A soft line break is dropped. -/
theorem unpackM_softBreak (s : List UInt8) :
    unpackM ('='.toUInt8 :: '\n'.toUInt8 :: s) = unpackM s := by
  have hcr : '\n'.toUInt8 ≠ '\r'.toUInt8 := by decide
  rw [unpackM.eq_def]
  simp [hcr]

/-- An escape `=XX` is read back as its byte. -/
theorem unpackM_escape (c : UInt8) (s : List UInt8) :
    unpackM ('='.toUInt8 :: hexTable.getD (c >>> (4 : UInt8)).toNat 0 ::
      hexTable.getD (c &&& 0x0f).toNat 0 :: s) = c :: unpackM s := by
  have hc := c.toNat_lt
  have hhi : (c >>> (4 : UInt8)).toNat = c.toNat / 16 := by
    simp [UInt8.toNat_shiftRight, Nat.shiftRight_eq_div_pow]
  have hlo : (c &&& 0x0f).toNat = c.toNat % 16 := by
    simpa using Nat.and_two_pow_sub_one_eq_mod c.toNat 4
  have hhi16 : (c >>> (4 : UInt8)).toNat < 16 := by omega
  have hlo16 : (c &&& 0x0f).toNat < 16 := by omega
  -- the two digits put back together
  have hbyte : UInt8.ofNat ((c >>> (4 : UInt8)).toNat <<< 4 ||| (c &&& 0x0f).toNat) = c := by
    rw [Nat.shiftLeft_eq, BitFields.or_eq_add_of_lt 4 (by simp) (by simpa using hlo16), hhi, hlo]
    apply UInt8.toNat_inj.mp
    rw [UInt8.toNat_ofNat']
    omega
  obtain ⟨hcr, hnl⟩ := hexTable_ne _ hhi16
  rw [unpackM.eq_def]
  simp only [if_true, List.head?_cons, hcr, hnl, false_and, if_false, hex2num_hexTable _ hhi16,
    hex2num_hexTable _ hlo16, hbyte]

/-- The bytes `qpencode` writes for one byte are read back as that byte, whatever follows. -/
theorem unpackM_qpencodeStep (len n : ℤ) (prev : Option UInt8) (c : UInt8)
    (rest : List UInt8) :
    unpackM ((qpencodeStep len n prev c).1 ++ rest) = c :: unpackM rest := by
  unfold qpencodeStep
  by_cases hE : c > 126 ∨ (c < 32 ∧ c ≠ '\n'.toUInt8 ∧ c ≠ '\t'.toUInt8) ∨ c = '='.toUInt8
  · -- an escape `=XX`
    simp only [if_pos hE]
    split_ifs <;>
      simp only [List.cons_append, List.nil_append, unpackM_escape, unpackM_softBreak]
  · by_cases hN : c = '\n'.toUInt8
    · -- a newline, after a soft line break when it follows a space or a tab
      subst hN
      have hnl : '\n'.toUInt8 ≠ '='.toUInt8 := by decide
      simp only [if_neg hE, if_true]
      split_ifs <;>
        simp only [List.cons_append, List.nil_append, unpackM_softBreak,
          unpackM_cons_of_ne hnl]
    · -- the byte itself
      have hc : c ≠ '='.toUInt8 := fun h => hE (Or.inr (Or.inr h))
      simp only [if_neg hE, if_neg hN]
      split_ifs <;>
        simp only [List.cons_append, List.nil_append, unpackM_softBreak,
          unpackM_cons_of_ne hc]

/-- The text of `qpencode` is read back, from any column and previous byte. -/
theorem unpackM_qpencodeLoop (len n : ℤ) (prev : Option UInt8) (s : List UInt8) :
    unpackM (qpencodeLoop len n prev s) = s := by
  induction s generalizing n prev with
  | nil =>
    simp only [qpencodeLoop]
    split_ifs
    · rw [unpackM_softBreak, unpackM.eq_def]
    · rw [unpackM.eq_def]
  | cons c s ih =>
    rcases h : qpencodeStep len n prev c with ⟨out, n', prev'⟩
    have hstep := unpackM_qpencodeStep len n prev c (qpencodeLoop len n' prev' s)
    rw [h] at hstep
    simp only [qpencodeLoop, h, hstep, ih]

/-- **`M` round trip.** -/
theorem unpackM_packPack (n : ℤ) (b : List UInt8) : unpackM (packPack .M n b) = b := by
  simp only [packPack, qpencode]
  exact unpackM_qpencodeLoop _ _ _ _

/-! ## The three directives -/

/-- **`unpack` inverts `pack` for `m`, `u` and `M`.** For every byte string and every count,
the string `unpack` reads from what `pack` wrote with the same directive is the original
one. -/
theorem unpack_inverts_pack (b : List UInt8) (n : ℤ) :
    packUnpackInternal .m 1 (packPack .m n b) = .ok b ∧
      packUnpackInternal .u 1 (packPack .u n b) = .ok b ∧
      packUnpackInternal .M 1 (packPack .M n b) = .ok b := by
  refine ⟨?_, ?_, ?_⟩
  · simp only [packUnpackInternal, one_ne_zero, if_false, unpackMLenient_packPack]
  · simp only [packUnpackInternal, unpackU_packPack]
  · simp only [packUnpackInternal, unpackM_packPack]

end CRuby.Pack
