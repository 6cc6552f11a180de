import CRuby.Enc.Utf8
import CRuby.Lib.ByteLanes
import CRuby.Lib.TwosComplement

/-!
# `rb_str_subpos` (string.c)

`rb_str_subpos(str, beg, &len)` turns a character index `beg` (from the end when negative) and
a character count `len` into a pointer and a byte length, or `NULL` when `beg` is out of range.
It finds the characters in one of seven ways:

* a string known to hold one byte per character (`single_byte_optimizable`) is indexed
  directly;
* a small negative `beg` walks back from the end with `rb_enc_prev_char`;
* another negative `beg` first counts the characters (`str_strlen`);
* `len == 0` only checks `beg` against the count;
* a valid UTF-8 string counts lead bytes, a word of eight at a time after aligning the pointer
  (`str_utf8_nth`, `str_utf8_offset`, `count_utf8_lead_bytes_with_word`);
* a fixed-width encoding multiplies;
* otherwise `str_nth_len` steps over characters by `rb_enc_mbclen`, and skips runs of ASCII
  with `search_nonascii`.

A string is the list of its bytes, and a pointer into it is a position in that list; `NULL` is
`none`. The word loops depend on where the string lies in memory: `addr` is the address of its
first byte. The machine is a 64-bit little-endian one with unaligned word access (x86-64):
`SIZEOF_VOIDP` is 8, `NONASCII_MASK` is `0x8080808080808080`, `ntz_intptr` is
`__builtin_ctzll`, and `count_utf8_lead_bytes_with_word` adds its lanes by shifts (no `POPCNT`).
A word is the number its eight bytes make read little-endian (`ByteWord.leVal`). `beg` and `len`
are `long`s, integers in `[LONG_MIN, LONG_MAX]`. A `long` result wraps (`wrapLong`), since the
build passes `-fno-strict-overflow` (configure.ac): `-beg`, `-beg * rb_enc_mbmaxlen(enc)` and
`len * char_sz` are computed so. `beg * char_sz` and the pointer sums are not wrapped: there
`beg` is at most `RSTRING_LEN`, and a string's bytes lie in a 64-bit address space.

The loops that step by `rb_enc_mbclen` have a fuel argument, the number of bytes: each step
moves on by at least a byte whenever the encoding's shortest character has one.
-/

namespace CRuby.Str

open CRuby.Enc ByteWord

/-- The `long` C computes for the exact result `x`: `x` wrapped to 64 bits. -/
def wrapLong (x : ℤ) : ℤ := TwosComplement.wrapSigned 63 x

theorem wrapLong_of_range {x : ℤ} (h1 : -2 ^ 63 ≤ x) (h2 : x < 2 ^ 63) : wrapLong x = x :=
  TwosComplement.wrapSigned_of_range h1 h2

/-- `SIZEOF_VOIDP` on x86-64. -/
def sizeofVoidp : ℕ := 8

/-- `NONASCII_MASK` for a 64-bit word. -/
def nonasciiMask : ℕ := 0x8080808080808080

/-- `ISASCII(c)`. -/
def isascii (c : UInt8) : Bool := c < 0x80

/-- `ntz_intptr(x)`: `__builtin_ctzll(x)`. -/
def ntzIntptr (x : ℕ) : ℕ := trailingZeros 64 x

/-! ## `search_nonascii` -/

/-- The `switch (e - p)` of `search_nonascii`: the bytes before `e` that no word covered, in
order. -/
def searchNonasciiTail (s : List UInt8) (e : ℕ) (p : ℕ) : Option ℕ :=
  if p < e then
    if s.getD p 0 &&& 0x80 ≠ 0 then some p else searchNonasciiTail s e (p + 1)
  else none
termination_by e - p

/-- `search_nonascii(p, e)` with `UNALIGNED_WORD_ACCESS`: the first byte from `p` with its top
bit set, read a word at a time while a whole word is left (`s < t` for `t = e - 7`). -/
def searchNonascii (s : List UInt8) (e : ℕ) (p : ℕ) : Option ℕ :=
  if p < e - (sizeofVoidp - 1) then
    if leVal s p 8 &&& nonasciiMask ≠ 0 then
      some (p + ntzIntptr (leVal s p 8 &&& nonasciiMask) >>> 3)
    else searchNonascii s e (p + sizeofVoidp)
  else searchNonasciiTail s e p
termination_by e - p
decreasing_by simp only [sizeofVoidp] at *; omega

theorem le_searchNonasciiTail {s : List UInt8} {e p q : ℕ} :
    searchNonasciiTail s e p = some q → p ≤ q := by
  fun_induction searchNonasciiTail s e p with
  | case1 p _ _ =>
    intro h
    cases h
    exact le_rfl
  | case2 p _ _ ih => exact fun h => Nat.le_of_succ_le (ih h)
  | case3 => nofun

/-- `search_nonascii` finds nothing before where it starts. -/
theorem le_searchNonascii {s : List UInt8} {e p q : ℕ} : searchNonascii s e p = some q → p ≤ q := by
  fun_induction searchNonascii s e p with
  | case1 p _ _ =>
    intro h
    cases h
    exact Nat.le_add_right _ _
  | case2 p _ _ ih => exact fun h => le_trans (Nat.le_add_right _ _) (ih h)
  | case3 p _ => exact le_searchNonasciiTail

/-! ## UTF-8 lead bytes -/

/-- `count_utf8_lead_bytes_with_word(s)` on the word `d`: bit 0 of each lane becomes
`(d >> 6) | (~d >> 7)`, set for a lead byte, and the lanes are added. -/
def countUtf8LeadBytesWithWord (d : ℕ) : ℕ :=
  addLanes ((d >>> 6 ||| (2 ^ 64 - 1 - d) >>> 7) &&& (nonasciiMask >>> 7))

/-- `while (p < q) { if (is_utf8_lead_byte(*p)) nth--; p++; }`: `nth` less the lead bytes from
`p` to `q`. -/
def utf8LeadSkip (s : List UInt8) (q : ℕ) (p : ℕ) (nth : ℤ) : ℤ :=
  if p < q then utf8LeadSkip s q (p + 1) (if utf8Islead (s.getD p 0) then nth - 1 else nth)
  else nth
termination_by q - p

/-- `do { nth -= count_utf8_lead_bytes_with_word(s); s++; } while (s < t && SIZEOF_VOIDP <= nth);`
from the word at `w`: the position after the last word read, and `nth`. -/
def utf8WordSkip (s : List UInt8) (t : ℕ) (w : ℕ) (nth : ℤ) : ℕ × ℤ :=
  let nth := nth - countUtf8LeadBytesWithWord (leVal s w 8)
  if w + sizeofVoidp < t ∧ (sizeofVoidp : ℤ) ≤ nth then utf8WordSkip s t (w + sizeofVoidp) nth
  else (w + sizeofVoidp, nth)
termination_by t - w
decreasing_by simp only [sizeofVoidp] at *; omega

/-- The byte loop of `str_utf8_nth`: on to the lead byte of character `nth`, counting from `p`;
where it stops and `nth`. -/
def utf8NthLoop (s : List UInt8) (e : ℕ) (p : ℕ) (nth : ℤ) : ℕ × ℤ :=
  if p < e then
    if utf8Islead (s.getD p 0) then
      if nth = 0 then (p, nth) else utf8NthLoop s e (p + 1) (nth - 1)
    else utf8NthLoop s e (p + 1) nth
  else (p, nth)
termination_by e - p

/-- `~lowbits & (x + lowbits)`: the address `x` rounded up to a word. -/
def alignUp (x : ℕ) : ℕ := (x + (sizeofVoidp - 1)) / sizeofVoidp * sizeofVoidp

/-- `~lowbits & x`: the address `x` rounded down to a word. -/
def alignDown (x : ℕ) : ℕ := x / sizeofVoidp * sizeofVoidp

/-- `str_utf8_nth(p, e, &nth)` in a string whose first byte is at address `addr`: where it stops
and `*nthp`. With more than two words of bytes and of characters to go, it counts the lead bytes
up to a word boundary, then whole words while a word's worth of characters is left, and goes on
byte by byte from the last word, which may end inside a character. -/
def strUtf8Nth (s : List UInt8) (addr p e : ℕ) (nth : ℤ) : ℕ × ℤ :=
  if sizeofVoidp * 2 < e - p ∧ ((sizeofVoidp * 2 : ℕ) : ℤ) < nth then
    let ws := alignUp (addr + p) - addr
    let wt := alignDown (addr + e) - addr
    let r := utf8WordSkip s wt ws (utf8LeadSkip s ws p nth)
    utf8NthLoop s e r.1 r.2
  else utf8NthLoop s e p nth

/-- `str_utf8_offset(p, e, nth)`: the bytes from `p` to character `nth`. -/
def strUtf8Offset (s : List UInt8) (addr p e : ℕ) (nth : ℤ) : ℕ := (strUtf8Nth s addr p e nth).1 - p

/-! ## `str_nth_len`, `str_nth`, `str_offset` -/

/-- The loop of `str_nth_len` for an ASCII-compatible encoding, from `p` with `nth` characters
to go: the pointer it returns and `*nthp`. -/
def nthAsciiLoop (enc : Encoding) (s : List UInt8) (e : ℕ) (p nth : ℕ) : ℕ × ℤ :=
  if p < e ∧ 0 < nth then
    if e < p + nth then (e, nth)
    else if isascii (s.getD p 0) then
      match searchNonascii s (p + nth) p with
      | none => (p + nth, 0)
      | some p2 =>
        nthAsciiLoop enc s e (p2 + enc.mbclen ((s.drop p2).take (e - p2))) (nth - (p2 - p) - 1)
    else nthAsciiLoop enc s e (p + enc.mbclen ((s.drop p).take (e - p))) (nth - 1)
  else (if nth ≠ 0 then e else p, nth)
termination_by nth

/-- The loop of `str_nth_len` for any other encoding:
`while (p < e && nth--) p += rb_enc_mbclen(p, e, enc);`. -/
def nthMbLoop (enc : Encoding) (s : List UInt8) (e : ℕ) (p nth : ℕ) : ℕ × ℤ :=
  if p < e then
    if nth = 0 then (p, -1)
    else nthMbLoop enc s e (p + enc.mbclen ((s.drop p).take (e - p))) (nth - 1)
  else (p, nth)
termination_by nth

/-- `str_nth_len(p, e, &nth, enc)`: where character `nth` from `p` starts, and `*nthp`. -/
def strNthLen (enc : Encoding) (s : List UInt8) (p e nth : ℕ) : ℕ × ℤ :=
  if enc.maxEncLen = 1 then (min (p + nth) e, nth)
  else if enc.maxEncLen = enc.minEncLen then (min (p + nth * enc.maxEncLen) e, nth)
  else if enc.asciicompat then nthAsciiLoop enc s e p nth
  else
    let r := nthMbLoop enc s e p nth
    (min r.1 e, r.2)

/-- `str_nth(p, e, nth, enc, singlebyte)`. -/
def strNth (enc : Encoding) (s : List UInt8) (p e nth : ℕ) (singlebyte : Bool) : ℕ :=
  min (if singlebyte then p + nth else (strNthLen enc s p e nth).1) e

/-- `str_offset(p, e, nth, enc, singlebyte)`: the bytes from `p` to character `nth`. -/
def strOffset (enc : Encoding) (s : List UInt8) (p e nth : ℕ) (singlebyte : Bool) : ℕ :=
  strNth enc s p e nth singlebyte - p

/-! ## Counting characters: `enc_strlen`, `rb_enc_strlen_cr`, `str_strlen` -/

/-- `while (p < e) { if (is_utf8_lead_byte(*p)) len++; p++; }` -/
def utf8LeadCount (s : List UInt8) (e : ℕ) (p len : ℕ) : ℕ :=
  if p < e then utf8LeadCount s e (p + 1) (if utf8Islead (s.getD p 0) then len + 1 else len)
  else len
termination_by e - p

/-- `while (s < t) { len += count_utf8_lead_bytes_with_word(s); s++; }`: where it stops, and
`len`. -/
def utf8WordCount (s : List UInt8) (t : ℕ) (w len : ℕ) : ℕ × ℕ :=
  if w < t then utf8WordCount s t (w + sizeofVoidp) (len + countUtf8LeadBytesWithWord (leVal s w 8))
  else (w, len)
termination_by t - w
decreasing_by simp only [sizeofVoidp] at *; omega

/-- The loop of `enc_strlen` for an ASCII-compatible encoding, stepping over a character by
`mbclen`: a run of ASCII found by `search_nonascii` counts one per byte. -/
def asciiCountLoop (mbclen : List UInt8 → ℕ) (s : List UInt8) (e : ℕ) : ℕ → ℕ → ℕ → ℕ
  | 0, _, c => c
  | fuel + 1, p, c =>
    if p < e then
      if isascii (s.getD p 0) then
        match searchNonascii s e p with
        | none => c + (e - p)
        | some q => asciiCountLoop mbclen s e fuel (q + mbclen ((s.drop q).take (e - q))) (c + (q - p) + 1)
      else asciiCountLoop mbclen s e fuel (p + mbclen ((s.drop p).take (e - p))) (c + 1)
    else c

/-- `for (c=0; p<e; c++) p += rb_enc_mbclen(p, e, enc);` -/
def mbCountLoop (enc : Encoding) (s : List UInt8) (e : ℕ) : ℕ → ℕ → ℕ → ℕ
  | 0, _, c => c
  | fuel + 1, p, c =>
    if p < e then mbCountLoop enc s e fuel (p + enc.mbclen ((s.drop p).take (e - p))) (c + 1) else c

/-- `enc_strlen(p, e, enc, cr)` over a whole string at address `addr`. -/
def encStrlen (enc : Encoding) (s : List UInt8) (addr : ℕ) (cr : Coderange) : ℕ :=
  let e := s.length
  if enc.maxEncLen = enc.minEncLen then
    e / enc.minEncLen + (if e % enc.minEncLen ≠ 0 then 1 else 0)
  else if cr = .valid ∧ enc.index = encindexUtf8 then
    if sizeofVoidp * 2 < e then
      let ws := alignUp addr - addr
      let wt := alignDown (addr + e) - addr
      let r := utf8WordCount s wt ws (utf8LeadCount s ws 0 0)
      utf8LeadCount s e r.1 r.2
    else utf8LeadCount s e 0 0
  else if enc.asciicompat then
    if cr.clean then asciiCountLoop enc.fastMbclen s e e 0 0
    else asciiCountLoop enc.mbclen s e e 0 0
  else mbCountLoop enc s e e 0 0

/-- One character of `rb_enc_strlen_cr` at `p`: a character found is stepped over and marks the
string valid, anything else is one broken byte. -/
def crStep (enc : Encoding) (s : List UInt8) (e p : ℕ) (cr : Coderange) : ℕ × Coderange :=
  let ret := enc.preciseMbclen ((s.drop p).take (e - p))
  if 0 < ret then (p + ret.toNat, cr.orValid) else (p + 1, .broken)

/-- The ASCII-compatible loop of `rb_enc_strlen_cr`: the count and `*cr`. -/
def asciiCountCrLoop (enc : Encoding) (s : List UInt8) (e : ℕ) (p c : ℕ) (cr : Coderange) :
    ℕ × Coderange :=
  if h : p < e then
    if isascii (s.getD p 0) then
      match hq : searchNonascii s e p with
      | none => (c + (e - p), cr.orSevenBit)
      | some q =>
        have : p ≤ q := le_searchNonascii hq
        asciiCountCrLoop enc s e (crStep enc s e q cr).1 (c + (q - p) + 1) (crStep enc s e q cr).2
    else asciiCountCrLoop enc s e (crStep enc s e p cr).1 (c + 1) (crStep enc s e p cr).2
  else (c, cr.orSevenBit)
termination_by e - p
decreasing_by all_goals (simp only [crStep]; split <;> omega)

/-- The loop of `rb_enc_strlen_cr` for other encodings: a character found is stepped over,
anything else is `mbminlen` bytes, or what is left. -/
def mbCountCrLoop (enc : Encoding) (s : List UInt8) (e : ℕ) :
    ℕ → ℕ → ℕ → Coderange → ℕ × Coderange
  | 0, _, c, cr => (c, cr.orSevenBit)
  | fuel + 1, p, c, cr =>
    if p < e then
      let ret := enc.preciseMbclen ((s.drop p).take (e - p))
      if 0 < ret then mbCountCrLoop enc s e fuel (p + ret.toNat) (c + 1) cr.orValid
      else mbCountCrLoop enc s e fuel (if p + enc.minEncLen ≤ e then p + enc.minEncLen else e) (c + 1)
        .broken
    else (c, cr.orSevenBit)

/-- `rb_enc_strlen_cr(p, e, enc, &cr)` over a whole string: the count and the coderange found
(`unknown` for a fixed-width encoding, which it does not scan). -/
def rbEncStrlenCr (enc : Encoding) (s : List UInt8) : ℕ × Coderange :=
  let e := s.length
  if enc.maxEncLen = enc.minEncLen then
    (e / enc.minEncLen + (if e % enc.minEncLen ≠ 0 then 1 else 0), .unknown)
  else if enc.asciicompat then asciiCountCrLoop enc s e 0 0 .unknown
  else mbCountCrLoop enc s e e 0 0 .unknown

/-- `str_strlen(str, enc)`: the character count, and the coderange of `str` after it, which an
unknown one's scan sets. -/
def strStrlen (enc : Encoding) (s : List UInt8) (addr : ℕ) (cr : Coderange) : ℕ × Coderange :=
  if singleByteOptimizable cr enc then (s.length, cr)
  else if cr = .unknown then rbEncStrlenCr enc s
  else (encStrlen enc s addr cr, cr)

/-! ## `rb_str_subpos` -/

/-- `rb_enc_prev_char(s, p, e, enc)`, that is `onigenc_get_prev_char_head`: the start of the
character before `p`, or `NULL` at the start `start`. -/
def encPrevChar (enc : Encoding) (s : List UInt8) (start p e : ℕ) : Option ℕ :=
  if p ≤ start then none else some (enc.leftAdjustCharHead s start (p - 1) e)

/-- `k` steps back by `rb_enc_prev_char` from `p`, with the end `e` of the string, or `none`
once a step gives `NULL`. -/
def prevChars (enc : Encoding) (s : List UInt8) (e : ℕ) : ℕ → ℕ → Option ℕ
  | 0, p => some p
  | k + 1, p => (encPrevChar enc s 0 p e).bind (prevChars enc s e k)

/-- `while (beg-- > len && (e = rb_enc_prev_char(s, e, e, enc)) != 0);`: `k` steps back from
the end, each with the current end. -/
def prevEnds (enc : Encoding) (s : List UInt8) : ℕ → ℕ → Option ℕ
  | 0, e => some e
  | k + 1, e => (encPrevChar enc s 0 e e).bind (prevEnds enc s k)

/-- The backward scan of `rb_str_subpos` for `beg = -k` and `len ≤ k`: `k - len` characters
back from the end to `e`, then `len` more to `p`; the pointer `p` and `e - p`. -/
def subposBack (enc : Encoding) (s : List UInt8) (k len : ℕ) : Option (ℕ × ℤ) :=
  match prevEnds enc s (k - len) s.length with
  | none => none
  | some e =>
    match prevChars enc s e len e with
    | none => none
    | some p => some (p, (e : ℤ) - p)

/-- The part of `rb_str_subpos` after `beg` is known to be in `[0, RSTRING_LEN]`: `len == 0`,
then valid UTF-8, a fixed width, or `str_nth_len` and `str_offset`. -/
def subposTail (enc : Encoding) (cr : Coderange) (addr : ℕ) (s : List UInt8) (beg : ℕ) (len : ℤ) :
    Option (ℕ × ℤ) :=
  let e := s.length
  if len = 0 then
    if (strStrlen enc s addr cr).1 < beg then none else some (beg, len)
  else if cr = .valid ∧ enc.index = encindexUtf8 then
    let r := strUtf8Nth s addr 0 e beg
    if 0 < r.2 then none else some (r.1, strUtf8Offset s addr r.1 e len)
  else if enc.maxEncLen = enc.minEncLen then
    let p := beg * enc.maxEncLen
    if e < p then none
    -- `len * char_sz` is a `long` product
    else if (e : ℤ) - p < wrapLong (len * enc.maxEncLen) then some (p, (e : ℤ) - p)
    else some (p, wrapLong (len * enc.maxEncLen))
  else
    let r := strNthLen enc s 0 e beg
    if r.1 = e then (if 0 < r.2 then none else some (e, 0))
    else some (r.1, strOffset enc s r.1 e len.toNat false)

/-- `rb_str_subpos(str, beg, &len)` on the bytes `s` of a string of coderange `cr` in `enc`,
whose first byte is at address `addr`: the position of the pointer returned and `*lenp`, or
`none` for `NULL`. -/
def rbStrSubpos (enc : Encoding) (cr : Coderange) (addr : ℕ) (s : List UInt8) (beg len : ℤ) :
    Option (ℕ × ℤ) :=
  let blen : ℤ := s.length
  if len < 0 then none
  else
    let len := if blen = 0 then 0 else len
    if singleByteOptimizable cr enc then
      if blen < beg then none
      else
        let beg := if beg < 0 then beg + blen else beg
        if beg < 0 then none
        else
          let len := if blen - beg < len then blen - beg else len
          if len < 0 then none else some (beg.toNat, len)
    else if beg < 0 then
      -- `-beg` is a `long`: for `LONG_MIN` it is `LONG_MIN` again, and `len` becomes it
      let len := if wrapLong (-beg) < len then wrapLong (-beg) else len
      if wrapLong (wrapLong (-beg) * enc.maxEncLen) < blen / 8 then
        -- the loops run `-beg - len` and `len` times, none for a negative count
        subposBack enc s (wrapLong (-beg)).toNat len.toNat
      else
        let r := strStrlen enc s addr cr
        let beg := beg + r.1
        if beg < 0 then none
        else if len = 0 then some (beg.toNat, len)
        else subposTail enc r.2 addr s beg.toNat len
    else if 0 < beg ∧ blen < beg then none
    else subposTail enc cr addr s beg.toNat len

end CRuby.Str
