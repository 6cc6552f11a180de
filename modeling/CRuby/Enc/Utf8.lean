import CRuby.Enc.Encoding
import CRuby.Lib.ByteWord

/-!
# UTF-8 (enc/utf_8.c)

Onigmo's UTF-8 reads a character with a state machine: `trans[s][b]` is the state after the
byte `b` in the state `s`, from `S0` at the first byte; `ACCEPT` ends a character and `FAILURE`
an invalid one. `mbc_enc_len` runs it over at most four bytes. It accepts exactly the
shortest forms of the code points up to `U+10FFFF` without the surrogates. `mbc_to_code`
assembles the bits of a character, and `code_to_mbclen` and `code_to_mbc` write one, with
`USE_INVALID_CODE_SCHEME`: the bytes `0xfe` and `0xff` stand for the code points `0xfffffffe`
and `0xffffffff`.

What string.c needs of it: a character that `mbc_enc_len` accepts is one lead byte followed by
continuation bytes (`mbcEncLen_charfound`), and an ASCII byte is a character of its own
(`mbcEncLen_ascii`). `utf8` is the encoding, and `utf8_asciicompat` says that it is ASCII
compatible.
-/

namespace CRuby.Enc

/-- `EncLen_UTF8[b]`: the length a first byte announces. -/
def encLenUtf8 (b : UInt8) : ℕ :=
  if b < 0xc0 then 1 else if b < 0xe0 then 2 else if b < 0xf0 then 3 else if b < 0xf5 then 4
  else 1

/-- `state_t` of utf_8.c. -/
inductive Utf8State
  | failure
  | accept
  | s0
  | s1
  | s2
  | s3
  | s4
  | s5
  | s6
  | s7
  deriving DecidableEq, Repr

/-- `s < 0`: `ACCEPT` or `FAILURE`. -/
def Utf8State.final : Utf8State → Bool
  | .failure => true
  | .accept => true
  | _ => false

/-- `trans[s][b]`, each row by its ranges of bytes. The rows are those of `S0` .. `S7`;
`mbc_enc_len` never indexes the table with a final state, which stays as it is here. -/
def utf8Trans : Utf8State → UInt8 → Utf8State
  | .s0, b =>
    if b < 0x80 then .accept
    else if b < 0xc2 then .failure
    else if b < 0xe0 then .s1
    else if b = 0xe0 then .s2
    else if b < 0xed then .s3
    else if b = 0xed then .s4
    else if b < 0xf0 then .s3
    else if b = 0xf0 then .s5
    else if b < 0xf4 then .s6
    else if b = 0xf4 then .s7
    else .failure
  | .s1, b => if 0x80 ≤ b ∧ b < 0xc0 then .accept else .failure
  | .s2, b => if 0xa0 ≤ b ∧ b < 0xc0 then .s1 else .failure
  | .s3, b => if 0x80 ≤ b ∧ b < 0xc0 then .s1 else .failure
  | .s4, b => if 0x80 ≤ b ∧ b < 0xa0 then .s1 else .failure
  | .s5, b => if 0x90 ≤ b ∧ b < 0xc0 then .s3 else .failure
  | .s6, b => if 0x80 ≤ b ∧ b < 0xc0 then .s3 else .failure
  | .s7, b => if 0x80 ≤ b ∧ b < 0x90 then .s3 else .failure
  | .failure, _ => .failure
  | .accept, _ => .accept

/-- The result of `mbc_enc_len` at a final state after `n` bytes: `CHARFOUND(n)` or
`INVALID`. -/
def utf8Found (s : Utf8State) (n : ℤ) : ℤ := if s = .accept then n else mbclenInvalid

/-- `mbc_enc_len(p, e, enc)`: the first byte from `S0`, and up to three more while the state is
not final; `NEEDMORE` with what the first byte announces when `e` comes first. It is never
called with `p == e`, which reads as `NEEDMORE(1)` here, the answer of
`rb_enc_precise_mbclen`. -/
def mbcEncLen : List UInt8 → ℤ
  | [] => needmore 1
  | b0 :: r0 =>
    let s := utf8Trans .s0 b0
    if s.final then utf8Found s 1
    else match r0 with
    | [] => needmore ((encLenUtf8 b0 : ℤ) - 1)
    | b1 :: r1 =>
      let s := utf8Trans s b1
      if s.final then utf8Found s 2
      else match r1 with
      | [] => needmore ((encLenUtf8 b0 : ℤ) - 2)
      | b2 :: r2 =>
        let s := utf8Trans s b2
        if s.final then utf8Found s 3
        else match r2 with
        | [] => needmore ((encLenUtf8 b0 : ℤ) - 3)
        | b3 :: _ => utf8Found (utf8Trans s b3) 4

/-- `mbc_to_code(p, e, enc)`: the low bits of the first byte and six bits of each byte after
it, or the byte itself when `mbc_enc_len` finds no character of two bytes or more. -/
def mbcToCode : List UInt8 → UInt32
  | [] => 0
  | c :: rest =>
    let len := mbcEncLen (c :: rest)
    if 1 < len then
      let len := (len - 1).toNat
      (rest.take len).foldl (fun n b => (n <<< 6) ||| (b.toUInt32 &&& 0x3f))
        (c.toUInt32 &&& ((1 <<< (6 - len.toUInt32)) - 1))
    else if c > 0xfd then (if c = 0xfe then 0xfffffffe else 0xffffffff)
    else c.toUInt32

/-- `VALID_CODE_LIMIT`. -/
def validCodeLimit : UInt32 := 0x10ffff

/-- `ONIGERR_TOO_BIG_WIDE_CHAR_VALUE`. -/
def onigerrTooBigWideCharValue : ℤ := -401

/-- `code_to_mbclen(code, enc)`. -/
def codeToMbclen (code : UInt32) : ℤ :=
  if code &&& 0xffffff80 = 0 then 1
  else if code &&& 0xfffff800 = 0 then 2
  else if code &&& 0xffff0000 = 0 then 3
  else if code ≤ validCodeLimit then 4
  else if code = 0xfffffffe then 1
  else if code = 0xffffffff then 1
  else onigerrTooBigWideCharValue

/-- `UTF8_TRAILS(code, shift)`. -/
def utf8Trails (code : UInt32) (shift : UInt32) : UInt8 := (((code >>> shift) &&& 0x3f) ||| 0x80).toUInt8

/-- `code_to_mbc(code, buf, enc)`: the bytes it writes, none for a code point too big. -/
def codeToMbc (code : UInt32) : List UInt8 :=
  if code &&& 0xffffff80 = 0 then [code.toUInt8]
  else if code &&& 0xfffff800 = 0 then
    [(((code >>> 6) &&& 0x1f) ||| 0xc0).toUInt8, utf8Trails code 0]
  else if code &&& 0xffff0000 = 0 then
    [(((code >>> 12) &&& 0x0f) ||| 0xe0).toUInt8, utf8Trails code 6, utf8Trails code 0]
  else if code ≤ validCodeLimit then
    [(((code >>> 18) &&& 0x07) ||| 0xf0).toUInt8, utf8Trails code 12, utf8Trails code 6,
      utf8Trails code 0]
  else if code = 0xfffffffe then [0xfe]
  else if code = 0xffffffff then [0xff]
  else []

/-- `utf8_islead(c)`: not a continuation byte `10xxxxxx`. -/
def utf8Islead (c : UInt8) : Bool := c &&& 0xc0 != 0x80

/-- The loop of `left_adjust_char_head`: back from `p` over continuation bytes, not below
`start`. -/
def utf8LeftAdjustLoop (bytes : List UInt8) (start : ℕ) : ℕ → ℕ
  | 0 => 0
  | p + 1 =>
    if !utf8Islead (bytes.getD (p + 1) 0) && start < p + 1 then utf8LeftAdjustLoop bytes start p
    else p + 1

/-- `left_adjust_char_head(start, s, end, enc)` of utf_8.c. -/
def utf8LeftAdjustCharHead (bytes : List UInt8) (start s _end : ℕ) : ℕ :=
  if s ≤ start then s else utf8LeftAdjustLoop bytes start s

/-- `OnigEncodingDefine(utf_8, UTF_8)`. -/
def utf8 : Encoding where
  name := "UTF-8"
  index := encindexUtf8
  minEncLen := 1
  maxEncLen := 4
  dummy := false
  preciseMbcEncLen := mbcEncLen
  mbcToCode := mbcToCode
  codeToMbclen := codeToMbclen
  codeToMbc := codeToMbc
  leftAdjustCharHead := utf8LeftAdjustCharHead

theorem utf8_asciicompat : utf8.asciicompat = true := rfl

theorem codeToMbclen_ne_zero (code : UInt32) : codeToMbclen code ≠ 0 := by
  unfold codeToMbclen
  split_ifs <;> decide

/-- `rb_enc_codelen` never raises for UTF-8. -/
theorem utf8_codelen_ok (c : UInt32) : ∃ n, utf8.codelen c = .ok n :=
  ⟨codeToMbclen c, if_neg (codeToMbclen_ne_zero c)⟩

/-! ## The state machine -/

/-- A byte that leaves `S0` for anything but `FAILURE` is a lead byte. -/
theorem utf8Islead_of_trans_s0 : ∀ b : UInt8, utf8Trans .s0 b ≠ .failure → utf8Islead b = true := by
  set_option maxRecDepth 4096 in
  exact ByteWord.uint8_forall (by decide)

/-- The inner states `S1` .. `S7`: neither `S0` nor final. -/
def Utf8State.Inner (s : Utf8State) : Prop := s ≠ .s0 ∧ s.final = false

/-- A byte that an inner state does not fail on is a continuation byte. -/
theorem not_utf8Islead_of_trans {s : Utf8State} (hs : s.Inner) :
    ∀ b : UInt8, utf8Trans s b ≠ .failure → utf8Islead b = false := by
  obtain ⟨hs0, hfin⟩ := hs
  set_option maxRecDepth 4096 in
  cases s <;> first
    | exact absurd rfl hs0
    | exact absurd rfl (Bool.false_ne_true ∘ hfin.symm.trans)
    | exact ByteWord.uint8_forall (by decide)

/-- No byte leads back to `S0`: a state that is not final after a byte is inner. -/
theorem utf8Trans_inner (s : Utf8State) (b : UInt8) (h : (utf8Trans s b).final = false) :
    (utf8Trans s b).Inner := by
  refine ⟨?_, h⟩
  cases s <;> simp only [utf8Trans] <;> (try split_ifs) <;> decide

/-- The bytes an inner state still needs: one from `S1`, two from `S2` .. `S4`, three from
`S5` .. `S7`. -/
def Utf8State.rem : Utf8State → ℕ
  | .s1 => 1
  | .s2 => 2
  | .s3 => 2
  | .s4 => 2
  | .s5 => 3
  | .s6 => 3
  | .s7 => 3
  | _ => 0

theorem Utf8State.Inner.rem_pos {s : Utf8State} (hs : s.Inner) : 0 < s.rem := by
  obtain ⟨hs0, hfin⟩ := hs
  cases s <;> simp_all [Utf8State.rem, Utf8State.final]

/-- The first byte announces the bytes that the state after it still needs. -/
theorem encLenUtf8_of_trans_s0 :
    ∀ b : UInt8, (utf8Trans .s0 b).final = false → encLenUtf8 b = (utf8Trans .s0 b).rem + 1 := by
  set_option maxRecDepth 4096 in
  exact ByteWord.uint8_forall (by decide)

/-- Each byte read in an inner state takes one off what it still needs. -/
theorem rem_utf8Trans {s : Utf8State} (hs : s.Inner) :
    ∀ b : UInt8, (utf8Trans s b).final = false → (utf8Trans s b).rem + 1 = s.rem := by
  obtain ⟨hs0, hfin⟩ := hs
  set_option maxRecDepth 4096 in
  cases s <;> first
    | exact absurd rfl hs0
    | exact absurd rfl (Bool.false_ne_true ∘ hfin.symm.trans)
    | exact ByteWord.uint8_forall (by decide)

theorem needmore_neg {n : ℤ} (h : 0 ≤ n) : needmore n < 0 := by
  unfold needmore
  omega

theorem utf8Found_pos {t : Utf8State} {n : ℤ} (h : 0 < utf8Found t n) :
    t = .accept ∧ utf8Found t n = n := by
  unfold utf8Found at *
  split_ifs at * with ht
  · exact ⟨ht, rfl⟩
  · exact absurd h (by decide)

theorem Utf8State.ne_failure_of_final {t : Utf8State} (h : t.final = false) : t ≠ .failure := by
  rintro rfl
  exact Bool.noConfusion h

/-- **A character that `mbc_enc_len` finds** is a lead byte and continuation bytes, no more
than the bytes from `p` to `e`. -/
theorem mbcEncLen_charfound {s : List UInt8} (h : 0 < mbcEncLen s) :
    ∃ b cs rest, s = b :: (cs ++ rest) ∧ mbcEncLen s = cs.length + 1 ∧ cs.length ≤ 3 ∧
      utf8Islead b = true ∧ ∀ c ∈ cs, utf8Islead c = false := by
  rcases s with _ | ⟨b0, r0⟩
  · exact absurd h (by decide)
  have hlead := utf8Islead_of_trans_s0 b0
  -- the state after `k` bytes is `t k`; each non-final one is inner and needs what `b0` announced
  set t0 := utf8Trans .s0 b0 with ht0
  by_cases hf0 : t0.final
  · have hfound : 0 < utf8Found t0 1 := by simpa [mbcEncLen, ← ht0, hf0] using h
    obtain ⟨hacc, hval⟩ := utf8Found_pos hfound
    exact ⟨b0, [], r0, rfl, by simpa [mbcEncLen, ← ht0, hf0] using hval, by simp,
      hlead (by rw [hacc]; decide), by simp⟩
  simp only [Bool.not_eq_true] at hf0
  have hin0 := utf8Trans_inner .s0 b0 hf0
  have hlen0 := encLenUtf8_of_trans_s0 b0 hf0
  have hrem0 := hin0.rem_pos
  have hlead0 := hlead (Utf8State.ne_failure_of_final hf0)
  rcases r0 with _ | ⟨b1, r1⟩
  · have hmore : mbcEncLen [b0] = needmore ((encLenUtf8 b0 : ℤ) - 1) := by
      simp [mbcEncLen, ← ht0, hf0]
    rw [hmore] at h
    exact absurd h (not_lt.mpr (needmore_neg (by rw [← ht0] at hlen0; omega)).le)
  set t1 := utf8Trans t0 b1 with ht1
  have hc1 := not_utf8Islead_of_trans hin0 b1
  by_cases hf1 : t1.final
  · have hfound : 0 < utf8Found t1 2 := by simpa [mbcEncLen, ← ht0, ← ht1, hf0, hf1] using h
    obtain ⟨hacc, hval⟩ := utf8Found_pos hfound
    refine ⟨b0, [b1], r1, rfl, by simpa [mbcEncLen, ← ht0, ← ht1, hf0, hf1] using hval, by simp,
      hlead0, ?_⟩
    simpa using hc1 (by rw [← ht1, hacc]; decide)
  simp only [Bool.not_eq_true] at hf1
  have hin1 := utf8Trans_inner t0 b1 hf1
  have hrem1 := rem_utf8Trans hin0 b1 hf1
  have hrem1' := hin1.rem_pos
  have hc1' := hc1 (Utf8State.ne_failure_of_final hf1)
  rcases r1 with _ | ⟨b2, r2⟩
  · have hmore : mbcEncLen [b0, b1] = needmore ((encLenUtf8 b0 : ℤ) - 2) := by
      simp [mbcEncLen, ← ht0, ← ht1, hf0, hf1]
    rw [hmore] at h
    exact absurd h (not_lt.mpr (needmore_neg (by rw [← ht0] at hlen0 hrem1; omega)).le)
  set t2 := utf8Trans t1 b2 with ht2
  have hc2 := not_utf8Islead_of_trans hin1 b2
  by_cases hf2 : t2.final
  · have hfound : 0 < utf8Found t2 3 := by
      simpa [mbcEncLen, ← ht0, ← ht1, ← ht2, hf0, hf1, hf2] using h
    obtain ⟨hacc, hval⟩ := utf8Found_pos hfound
    refine ⟨b0, [b1, b2], r2, rfl,
      by simpa [mbcEncLen, ← ht0, ← ht1, ← ht2, hf0, hf1, hf2] using hval, by simp, hlead0, ?_⟩
    simpa [hc1'] using hc2 (by rw [← ht2, hacc]; decide)
  simp only [Bool.not_eq_true] at hf2
  have hin2 := utf8Trans_inner t1 b2 hf2
  have hrem2 := rem_utf8Trans hin1 b2 hf2
  have hrem2' := hin2.rem_pos
  have hc2' := hc2 (Utf8State.ne_failure_of_final hf2)
  rcases r2 with _ | ⟨b3, r3⟩
  · have hmore : mbcEncLen [b0, b1, b2] = needmore ((encLenUtf8 b0 : ℤ) - 3) := by
      simp [mbcEncLen, ← ht0, ← ht1, ← ht2, hf0, hf1, hf2]
    rw [hmore] at h
    exact absurd h (not_lt.mpr (needmore_neg (by rw [← ht0] at hlen0 hrem1; omega)).le)
  -- the fourth byte ends the character either way
  have hfound : 0 < utf8Found (utf8Trans t2 b3) 4 := by
    simpa [mbcEncLen, ← ht0, ← ht1, ← ht2, hf0, hf1, hf2] using h
  obtain ⟨hacc, hval⟩ := utf8Found_pos hfound
  refine ⟨b0, [b1, b2, b3], r3, rfl,
    by simpa [mbcEncLen, ← ht0, ← ht1, ← ht2, hf0, hf1, hf2] using hval, by simp, hlead0, ?_⟩
  simpa [hc1', hc2'] using not_utf8Islead_of_trans hin2 b3 (by rw [hacc]; decide)

/-- An ASCII byte is a character of one byte. -/
theorem mbcEncLen_ascii {b : UInt8} (hb : b < 0x80) (rest : List UInt8) :
    mbcEncLen (b :: rest) = 1 := by
  have hacc : utf8Trans .s0 b = .accept := by simp [utf8Trans, hb]
  simp [mbcEncLen, hacc, Utf8State.final, utf8Found]

end CRuby.Enc
