import CRuby.Enc.Encoding

/-!
# UTF-32LE (enc/utf_32le.c)

A character is four bytes, the code point read little-endian. `mbc_enc_len` accepts four bytes
that make a Unicode scalar value (`UNICODE_VALID_CODEPOINT_P`: at most `U+10FFFF`, and no
surrogate), and asks for the bytes missing from a shorter tail. `left_adjust_char_head` goes
back to a multiple of four bytes from the start. `utf32le` is the encoding: its characters have
a fixed width, so string.c multiplies where it would step over characters.
-/

namespace CRuby.Enc

/-- `RUBY_ENCINDEX_UTF_32LE` (encindex.h). -/
def encindexUtf32le : ℕ := 6

/-- `utf32le_mbc_to_code(p, end)`: `((p[3] * 256 + p[2]) * 256 + p[1]) * 256 + p[0]`, taken as
an `OnigCodePoint`. -/
def utf32leMbcToCode (s : List UInt8) : UInt32 :=
  (((s.getD 3 0).toUInt32 * 256 + (s.getD 2 0).toUInt32) * 256 + (s.getD 1 0).toUInt32) * 256 +
    (s.getD 0 0).toUInt32

/-- `UNICODE_VALID_CODEPOINT_P(c)` (regenc.h): at most `0x10ffff` and, below `0x10000`, no
`UTF16_IS_SURROGATE(c >> 8)`. -/
def unicodeValidCodepointP (c : UInt32) : Bool :=
  c ≤ 0x10ffff && !(c < 0x10000 && (c >>> 8) &&& 0xf8 == 0xd8)

/-- `utf32le_mbc_enc_len(p, e)`. -/
def utf32leMbcEncLen (s : List UInt8) : ℤ :=
  if s.length < 4 then needmore (4 - s.length)
  else if unicodeValidCodepointP (utf32leMbcToCode s) then 4
  else mbclenInvalid

/-- `utf32le_code_to_mbclen(code)`. -/
def utf32leCodeToMbclen (_ : UInt32) : ℤ := 4

/-- `utf32le_code_to_mbc(code, buf)`: the four bytes of `code`, lowest first. -/
def utf32leCodeToMbc (code : UInt32) : List UInt8 :=
  [(code &&& 0xff).toUInt8, ((code &&& 0xff00) >>> 8).toUInt8,
    ((code &&& 0xff0000) >>> 16).toUInt8, ((code &&& 0xff000000) >>> 24).toUInt8]

/-- `utf32le_left_adjust_char_head(start, s, end)`. -/
def utf32leLeftAdjustCharHead (_ : List UInt8) (start s _ : ℕ) : ℕ :=
  if s ≤ start then s else s - (s - start) % 4

/-- `OnigEncodingDefine(utf_32le, UTF_32LE)`: four bytes at least and at most. -/
def utf32le : Encoding where
  name := "UTF-32LE"
  index := encindexUtf32le
  minEncLen := 4
  maxEncLen := 4
  dummy := false
  preciseMbcEncLen := utf32leMbcEncLen
  mbcToCode := utf32leMbcToCode
  codeToMbclen := utf32leCodeToMbclen
  codeToMbc := utf32leCodeToMbc
  leftAdjustCharHead := utf32leLeftAdjustCharHead

end CRuby.Enc
