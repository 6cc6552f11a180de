import Mathlib.Data.Int.Basic
import Mathlib.Data.UInt

/-!
# Encodings (onigmo.h, encoding.c)

The string functions of string.c see an encoding through a few slots of Onigmo's
`OnigEncodingType` and the wrappers of encoding.c around them. `Encoding` is those slots: the
byte lengths, `precise_mbc_enc_len`, `mbc_to_code`, `code_to_mbclen`, `code_to_mbc` and
`left_adjust_char_head`, with Ruby's index and dummy flag. A pointer pair `p, e` is the list of bytes from `p` to `e`.

The results of `precise_mbc_enc_len` are coded as onigmo.h codes them, in an `int`: `n > 0` is a
character of `n` bytes (`CHARFOUND`), `-1` an invalid byte sequence, `-1 - n` a character that
needs `n` more bytes (`NEEDMORE`). The wrappers are

* `rb_enc_precise_mbclen`, which also answers `NEEDMORE` for a character running past `e`;
* `rb_enc_mbclen`, the length of the character, or `mbminlen` bytes for an invalid one;
* `rb_enc_fast_mbclen` (`onigenc_mbclen_approximate`), which trusts `precise_mbc_enc_len`;
* `rb_enc_ascget` and `rb_enc_codepoint_len`, which read one character;
* `rb_enc_codelen`, the bytes of a code point.
-/

namespace CRuby.Enc

/-- The slots of `OnigEncodingType` (onigmo.h) that string.c uses, with `rb_enc_to_index` and
`rb_enc_dummy_p`. -/
structure Encoding where
  name : String
  index : ℕ
  minEncLen : ℕ
  maxEncLen : ℕ
  dummy : Bool
  preciseMbcEncLen : List UInt8 → ℤ
  mbcToCode : List UInt8 → UInt32
  codeToMbclen : UInt32 → ℤ
  codeToMbc : UInt32 → List UInt8
  /-- `left_adjust_char_head(start, s, end)` on the bytes of a string: the first byte of the
  character that holds position `s` -/
  leftAdjustCharHead : List UInt8 → ℕ → ℕ → ℕ → ℕ

/-- `ONIGENC_CONSTRUCT_MBCLEN_NEEDMORE(n)`. -/
def needmore (n : ℤ) : ℤ := -1 - n

/-- `ONIGENC_CONSTRUCT_MBCLEN_INVALID()`. -/
def mbclenInvalid : ℤ := -1

/-- `RUBY_ENCINDEX_ASCII`, the index of ASCII-8BIT. -/
def encindexAscii : ℕ := 0

/-- `RUBY_ENCINDEX_UTF_8`. -/
def encindexUtf8 : ℕ := 1

namespace Encoding

variable (enc : Encoding)

/-- `rb_enc_asciicompat`: a minimum of one byte and not a dummy. -/
def asciicompat : Bool := enc.minEncLen == 1 && !enc.dummy

/-- `rb_enc_precise_mbclen(p, e, enc)`. -/
def preciseMbclen (s : List UInt8) : ℤ :=
  if s = [] then needmore 1
  else
    let n := enc.preciseMbcEncLen s
    if (s.length : ℤ) < n then needmore (n - s.length) else n

/-- `rb_enc_mbclen(p, e, enc)`: the bytes of the character at `p`, or `mbminlen` (at most what
is left) when there is none. -/
def mbclen (s : List UInt8) : ℕ :=
  let n := enc.preciseMbcEncLen s
  if 0 < n ∧ n ≤ s.length then n.toNat
  else if enc.minEncLen ≤ s.length then enc.minEncLen else s.length

/-- `rb_enc_fast_mbclen(p, e, enc)`, that is `onigenc_mbclen_approximate` (regenc.c): the
length `precise_mbc_enc_len` finds, what is left plus what is missing, or one byte. -/
def fastMbclen (s : List UInt8) : ℕ :=
  let r := enc.preciseMbcEncLen s
  if 0 < r then r.toNat
  else if r < -1 then s.length + (-1 - r).toNat
  else 1

/-- `rb_enc_ascget(p, e, &len, enc)`: the ASCII character at `p` and its length, or `none`
for `-1`. -/
def ascget (s : List UInt8) : Option (ℕ × ℕ) :=
  match s with
  | [] => none
  | b :: _ =>
    if enc.asciicompat then
      if b.toNat < 128 then some (b.toNat, 1) else none
    else
      let l := enc.preciseMbclen s
      if 0 < l then
        let c := enc.mbcToCode s
        if c.toNat < 128 then some (c.toNat, l.toNat) else none
      else none

/-- `rb_enc_codepoint_len(p, e, &len, enc)`: the code point at `p` and its length; the
`ArgumentError`s are their messages. -/
def codepointLen (s : List UInt8) : Except String (UInt32 × ℕ) :=
  if s = [] then .error "empty string"
  else
    let r := enc.preciseMbclen s
    if 0 < r then .ok (enc.mbcToCode s, r.toNat)
    else .error ("invalid byte sequence in " ++ enc.name)

/-- `rb_enc_codelen(c, enc)`: `code_to_mbclen`, which raises only on `0`. -/
def codelen (c : UInt32) : Except String ℤ :=
  let n := enc.codeToMbclen c
  if n = 0 then .error ("invalid codepoint 0x" ++ String.ofList (Nat.toDigits 16 c.toNat) ++ " in " ++ enc.name)
  else .ok n

end Encoding

/-- `ENC_CODERANGE(str)`: what a string knows of its bytes, `unknown` until they are scanned. -/
inductive Coderange
  | unknown
  /-- `ENC_CODERANGE_7BIT`: every byte is ASCII. -/
  | sevenBit
  | valid
  | broken
  deriving DecidableEq, Repr

/-- `single_byte_optimizable(str)`: the string is known to be ASCII, or the encoding has one
byte per character. -/
def singleByteOptimizable (cr : Coderange) (enc : Encoding) : Bool :=
  cr == .sevenBit || enc.maxEncLen == 1

/-- `ENC_CODERANGE_CLEAN_P(cr)`: 7-bit or valid. -/
def Coderange.clean : Coderange → Bool
  | .sevenBit | .valid => true
  | _ => false

/-- `cr |= ENC_CODERANGE_VALID` on the flags of a coderange (7-bit and valid make broken). -/
def Coderange.orValid : Coderange → Coderange
  | .unknown | .valid => .valid
  | .sevenBit | .broken => .broken

/-- `if (!cr) cr = ENC_CODERANGE_7BIT;` -/
def Coderange.orSevenBit : Coderange → Coderange
  | .unknown => .sevenBit
  | cr => cr

end CRuby.Enc
