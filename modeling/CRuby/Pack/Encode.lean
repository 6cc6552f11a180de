import Mathlib.Data.UInt
import Mathlib.Order.Basic

/-!
# The text encoders of `Array#pack` (pack.c)

The directives `u` (uuencode), `m` (base64) and `M` (quoted-printable) of `pack_pack` turn one
string into text:

* `encodes` writes one line: for `u` a length character first, then each group of three bytes
  as four characters of `uu_table` or `b64_table`, a short last group padded with `` ` `` or
  `=`, and a newline when asked;
* `pack_pack` cuts the string into lines of a length it derives from the count (45 bytes by
  default, at most 63 for `u`, always a multiple of three), except for `m0`, which writes one
  line without a newline;
* `qpencode` escapes bytes as `=XX`, protects a space or tab before a newline by a soft break
  `=\n`, and inserts a soft break when the column passes the line length.

Bytes are `UInt8`, strings are lists of bytes. The 4096- and 1024-byte staging buffers of the C
code only batch the appends to the result and are not modelled.
-/

namespace CRuby.Pack

/-- The directives whose encoders this module models. -/
inductive PackType
  | u
  | m
  | M
  deriving DecidableEq, Repr

/-- `uu_table`: the byte `` ` `` for 0, then the characters `!` to `_` (33 to 95). -/
def uuTable : List UInt8 :=
  "\x60!\"#$%&\x27()*+,-./0123456789:;<=>?@ABCDEFGHIJKLMNOPQRSTUVWXYZ[\\]^_".toList.map
    Char.toUInt8

/-- `b64_table`. -/
def b64Table : List UInt8 :=
  "ABCDEFGHIJKLMNOPQRSTUVWXYZabcdefghijklmnopqrstuvwxyz0123456789+/".toList.map Char.toUInt8

/-- `hex_table`. -/
def hexTable : List UInt8 := "0123456789ABCDEF".toList.map Char.toUInt8

/-! ## `encodes` -/

/-- The first six bits of a group, `077 & (s[0] >> 2)`. -/
def sextet0 (s0 : UInt8) : UInt8 := 0o77 &&& (s0 >>> (2 : UInt8))

/-- The second six bits, `077 & (((s[0] << 4) & 060) | ((s[1] >> 4) & 017))`. -/
def sextet1 (s0 s1 : UInt8) : UInt8 :=
  0o77 &&& (((s0 <<< (4 : UInt8)) &&& 0o60) ||| ((s1 >>> (4 : UInt8)) &&& 0o17))

/-- The third six bits, `077 & (((s[1] << 2) & 074) | ((s[2] >> 6) & 03))`. -/
def sextet2 (s1 s2 : UInt8) : UInt8 :=
  0o77 &&& (((s1 <<< (2 : UInt8)) &&& 0o74) ||| ((s2 >>> (6 : UInt8)) &&& 0o3))

/-- The last six bits, `077 & s[2]`. -/
def sextet3 (s2 : UInt8) : UInt8 := 0o77 &&& s2

/-- The body of `encodes`: each group of three bytes as four characters of `trans`; a last
group of two or one bytes is computed with `'\0'` for the missing byte and padded to four. -/
def encodesBody (trans : List UInt8) (padding : UInt8) : List UInt8 → List UInt8
  | s0 :: s1 :: s2 :: s =>
    [trans.getD (sextet0 s0).toNat 0, trans.getD (sextet1 s0 s1).toNat 0,
      trans.getD (sextet2 s1 s2).toNat 0, trans.getD (sextet3 s2).toNat 0] ++
      encodesBody trans padding s
  | [s0, s1] =>
    [trans.getD (sextet0 s0).toNat 0, trans.getD (sextet1 s0 s1).toNat 0,
      trans.getD (sextet2 s1 0).toNat 0, padding]
  | [s0] => [trans.getD (sextet0 s0).toNat 0, trans.getD (sextet1 s0 0).toNat 0, padding, padding]
  | [] => []

/-- `encodes(str, s, len, type, tail_lf)`: the text of one line for the bytes `s`. -/
def encodes (s : List UInt8) (type : PackType) (tailLf : Bool) : List UInt8 :=
  let trans := if type = .u then uuTable else b64Table
  let padding := if type = .u then '\x60'.toUInt8 else '='.toUInt8
  -- for `u` the line starts with `(char)len + ' '`
  (if type = .u then [UInt8.ofNat s.length + ' '.toUInt8] else []) ++
    encodesBody trans padding s ++ (if tailLf then ['\n'.toUInt8] else [])

/-! ## Lines -/

/-- A line length of `u` and `m`. It is positive, so that the line loop of `pack_pack` ends,
and a multiple of three, so that no group of three bytes is split between two lines. -/
structure LineLen where
  val : ℕ
  pos : 0 < val
  dvd : 3 ∣ val

/-- The line length `pack_pack` derives from the count `len` for `u` and `m` (other than `m0`):
45 for a count up to 2, 63 for a larger count than 63 with `u`, otherwise the count rounded down
to a multiple of three. -/
def packLineLen (type : PackType) (len : ℤ) : LineLen :=
  if h : len ≤ 2 then ⟨45, by omega, by decide⟩
  else if len > 63 ∧ type = .u then ⟨63, by omega, by decide⟩
  else ⟨(len / 3 * 3).toNat, by omega, ⟨(len / 3).toNat, by omega⟩⟩

/-- The line loop of `pack_pack`: while bytes remain, `encodes` the next `min plen len` of them
as one line ending in a newline. -/
def encodesLines (type : PackType) (len : LineLen) (s : List UInt8) : List UInt8 :=
  if s = [] then []
  else encodes (s.take len.val) type true ++ encodesLines type len (s.drop len.val)
termination_by s.length
decreasing_by
  have := len.pos
  have : s.length ≠ 0 := by simpa using ‹¬s = []›
  simp only [List.length_drop]
  omega

/-! ## `qpencode` -/

/-- One turn of the loop of `qpencode` on the byte `c`, at column `n` after the byte `prev`
(`none` for `EOF`): the bytes written and the new `n` and `prev`. -/
def qpencodeStep (len n : ℤ) (prev : Option UInt8) (c : UInt8) :
    List UInt8 × ℤ × Option UInt8 :=
  let (out, n, prev) :=
    if c > 126 ∨ (c < 32 ∧ c ≠ '\n'.toUInt8 ∧ c ≠ '\t'.toUInt8) ∨ c = '='.toUInt8 then
      (['='.toUInt8, hexTable.getD (c >>> (4 : UInt8)).toNat 0,
        hexTable.getD (c &&& 0x0f).toNat 0], n + 3, none)
    else if c = '\n'.toUInt8 then
      -- a space or a tab before the newline is protected by a soft line break
      ((if prev = some ' '.toUInt8 ∨ prev = some '\t'.toUInt8 then ['='.toUInt8, c] else []) ++
        [c], 0, some c)
    else ([c], n + 1, some c)
  if n > len then (out ++ ['='.toUInt8, '\n'.toUInt8], 0, some '\n'.toUInt8)
  else (out, n, prev)

/-- The loop of `qpencode` from column `n` after `prev`, with the soft line break that ends an
unfinished last line. -/
def qpencodeLoop (len : ℤ) : ℤ → Option UInt8 → List UInt8 → List UInt8
  | n, _, [] => if n > 0 then ['='.toUInt8, '\n'.toUInt8] else []
  | n, prev, c :: s =>
    let (out, n', prev') := qpencodeStep len n prev c
    out ++ qpencodeLoop len n' prev' s

/-- `qpencode(str, from, len)`. -/
def qpencode (s : List UInt8) (len : ℤ) : List UInt8 := qpencodeLoop len 0 none s

/-! ## `pack_pack` -/

/-- The text `pack_pack` appends for one string item of the directive `type` with count `len`
(the `long` after the count is parsed; 1 when the directive has none). -/
def packPack (type : PackType) (len : ℤ) (s : List UInt8) : List UInt8 :=
  match type with
  | .u | .m =>
    if len = 0 ∧ type = .m then encodes s .m false
    else encodesLines type (packLineLen type len) s
  | .M => qpencode s (if len ≤ 1 then 72 else len)

end CRuby.Pack
