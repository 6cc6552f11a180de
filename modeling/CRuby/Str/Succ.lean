import Mathlib.Data.UInt
import Mathlib.Order.Basic

/-!
# `String#succ` (string.c)

`str_succ` walks a string from its last character to its first. Each alphanumeric character is
replaced by the next one of its class by `enc_succ_alnum_char`; when the class runs out, the
character wraps to the first of its class and the walk goes on to the left, carrying. A carry
out of the leftmost alphanumeric is inserted before it. A string without alphanumerics is
incremented in the encoding's byte order instead.

`enc_succ_alnum_char` finds the class of a character by probing: it tries the next two
characters (`max_gaps = 1`), and when neither is of the class it walks back with
`enc_pred_char` to the first character of the run, counting the run's length.

The model is for a single-byte encoding: every character is one byte, and
`rb_enc_precise_mbclen` of a byte says only whether the byte is a character. The encoding is
what the code asks of it (`SbEncoding`).
-/

namespace CRuby.Str

/-- `enum neighbor_char`. -/
inductive NeighborChar
  | notChar
  | found
  | wrapped
  deriving DecidableEq, Repr

/-- The ctypes `enc_succ_alnum_char` tells apart: `ONIGENC_CTYPE_DIGIT` and
`ONIGENC_CTYPE_ALPHA`. -/
inductive Ctype
  | digit
  | alpha
  deriving DecidableEq, Repr

/-- A single-byte encoding as `str_succ` queries it: which bytes are characters
(`rb_enc_precise_mbclen` of the byte is `CHARFOUND`), `rb_enc_isctype` for the two ctypes,
and `rb_enc_asciicompat`. -/
structure SbEncoding where
  isChar : UInt8 → Bool
  isDigit : UInt8 → Bool
  isAlpha : UInt8 → Bool
  asciiCompat : Bool

/-- `rb_enc_isctype(c, ctype, enc)`. -/
def SbEncoding.isCtype (enc : SbEncoding) : Ctype → UInt8 → Bool
  | .digit => enc.isDigit
  | .alpha => enc.isAlpha

/-- The test that opens `enc_succ_alnum_char`: a digit, else a letter, else neither
(`NEIGHBOR_NOT_CHAR`). -/
def SbEncoding.alnumCtype (enc : SbEncoding) (c : UInt8) : Option Ctype :=
  if enc.isDigit c then some .digit else if enc.isAlpha c then some .alpha else none

/-- `ISDIGIT`, the ASCII test. -/
def asciiDigit (c : UInt8) : Bool := '0'.toUInt8 ≤ c ∧ c ≤ '9'.toUInt8

/-- `ISALPHA`, the ASCII test. -/
def asciiAlpha (c : UInt8) : Bool :=
  ('A'.toUInt8 ≤ c ∧ c ≤ 'Z'.toUInt8) ∨ ('a'.toUInt8 ≤ c ∧ c ≤ 'z'.toUInt8)

/-- `US-ASCII`: the bytes below `0x80` are its characters. -/
def usAscii : SbEncoding where
  isChar c := c < 0x80
  isDigit := asciiDigit
  isAlpha := asciiAlpha
  asciiCompat := true

/-! ## `enc_succ_char` and `enc_pred_char` -/

section Neighbor

variable (enc : SbEncoding)

/-- The loop of `enc_succ_char` on a character of one byte: `0xff` wraps to `0`
(`NEIGHBOR_WRAPPED`); any other byte is incremented until it is a character. Every turn
increments the byte, so 256 turns always suffice. -/
def encSuccCharLoop : ℕ → UInt8 → NeighborChar × UInt8
  | 0, p => (.wrapped, p)
  | fuel + 1, p =>
    if p = 0xff then (.wrapped, 0)
    else if enc.isChar (p + 1) then (.found, p + 1)
    else encSuccCharLoop fuel (p + 1)

/-- `enc_succ_char(p, 1, enc)`: the result and the byte it leaves in `*p`. -/
def encSuccChar (p : UInt8) : NeighborChar × UInt8 := encSuccCharLoop enc 256 p

/-- The loop of `enc_pred_char` on a character of one byte: `0` wraps to `0xff`; any other
byte is decremented until it is a character. -/
def encPredCharLoop : ℕ → UInt8 → NeighborChar × UInt8
  | 0, p => (.wrapped, p)
  | fuel + 1, p =>
    if p = 0 then (.wrapped, 0xff)
    else if enc.isChar (p - 1) then (.found, p - 1)
    else encPredCharLoop fuel (p - 1)

/-- `enc_pred_char(p, 1, enc)`. -/
def encPredChar (p : UInt8) : NeighborChar × UInt8 := encPredCharLoop enc 256 p

end Neighbor

/-! ## `enc_succ_alnum_char` -/

section Alnum

variable (enc : SbEncoding)

/-- `max_gaps`: one character that is not of the class may be skipped (the gap of `U+03A2`
between the Greek capital letters). -/
def maxGaps : ℕ := 1

/-- The `for (try = 0; try <= max_gaps; ++try)` loop: the next character of the class `ct`
within `n` calls of `enc_succ_char`, each from where the previous one left. -/
def succTries (ct : Ctype) : ℕ → UInt8 → Option UInt8
  | 0, _ => none
  | n + 1, p =>
    let (ret, p) := encSuccChar enc p
    if ret = .found ∧ enc.isCtype ct p then some p else succTries ct n p

/-- The `while (1)` loop over `enc_pred_char`: from `p`, steps back while the previous
character is of the class `ct`, counting in `range`; the first character of the run and its
length. Every turn lowers the byte, so 256 turns always suffice. -/
def predRun (ct : Ctype) : ℕ → UInt8 → ℕ → UInt8 × ℕ
  | 0, p, range => (p, range)
  | fuel + 1, p, range =>
    let (ret, q) := encPredChar enc p
    if ret = .found ∧ enc.isCtype ct q then predRun ct fuel q (range + 1) else (p, range)

/-- `enc_succ_alnum_char(p, 1, enc, carry)`: the result, the byte left in `*p` and the carry.
A character of its class's last value wraps to the first, and the carry is that first
character, or for digits the one after it. -/
def encSuccAlnumChar (p carry : UInt8) : NeighborChar × UInt8 × UInt8 :=
  match enc.alnumCtype p with
  | none => (.notChar, p, carry)
  | some ct =>
    match succTries enc ct (maxGaps + 1) p with
    | some q => (.found, q, carry)
    | none =>
      -- `MEMCPY(p, save, char, len)`: the walk back starts from the character itself
      let (p, range) := predRun enc ct 256 p 1
      if range = 1 then (.notChar, p, carry)
      else if ct ≠ .digit then (.wrapped, p, p)
      else (.wrapped, p, (encSuccChar enc p).2)

end Alnum

/-! ## `str_succ` -/

/-- The locals of the first loop of `str_succ`: `neighbor`, `last_alnum`, whether `c` was set
to 1, the carry character (`"\1"` at first) and `carry_pos`. `carry_len` is the length of a
character, always 1 here. -/
structure SuccState where
  neighbor : NeighborChar
  lastAlnum : Option ℕ
  alnum : Bool
  carry : UInt8
  carryPos : ℕ

/-- The locals as `str_succ` declares them. -/
def SuccState.init : SuccState := ⟨.found, none, false, 1, 0⟩

/-- `ISALPHA(*last_alnum) ? ISDIGIT(*s) : ISDIGIT(*last_alnum) ? ISALPHA(*s) : 0`: a
non-alphanumeric run after a wrapped alphanumeric ends the walk at a character of the other
kind. -/
def alnumBoundary (last s : UInt8) : Bool :=
  if asciiAlpha last then asciiDigit s else if asciiDigit last then asciiAlpha s else false

section Loops

variable (enc : SbEncoding)

/-- The first loop of `str_succ` over the `i` characters left of the current position, right
to left. `.inl` is the string returned at `NEIGHBOR_FOUND`; `.inr` is the string and the
locals when the loop ends or breaks. -/
def strSuccLoop : ℕ → List UInt8 → SuccState → List UInt8 ⊕ (List UInt8 × SuccState)
  | 0, str, st => .inr (str, st)
  | i + 1, str, st =>
    let s := str.getD i 0
    if st.neighbor = .notChar ∧
        (st.lastAlnum.map fun j => alnumBoundary (str.getD j 0) s) = some true then
      .inr (str, st)
    else if ¬ enc.isChar s then strSuccLoop i str st
    else
      let (neighbor, p, carry) := encSuccAlnumChar enc s st.carry
      let str := str.set i p
      match neighbor with
      | .notChar => strSuccLoop i str { st with neighbor := neighbor }
      | .found => .inl str
      | .wrapped =>
        strSuccLoop i str
          { neighbor := neighbor, lastAlnum := some i, alnum := true, carry := carry, carryPos := i }

/-- The loop of `str_succ` for a string without alphanumerics (`c == -1`): each character is
incremented by `enc_succ_char`, and the walk goes on to the left while it wraps. `.inl` is the
string returned at `NEIGHBOR_FOUND`; `.inr` the string, `carry_pos` and the carry after it. -/
def noAlnumLoop : ℕ → List UInt8 → ℕ → UInt8 → List UInt8 ⊕ (List UInt8 × ℕ × UInt8)
  | 0, str, pos, carry => .inr (str, pos, carry)
  | i + 1, str, pos, carry =>
    let s := str.getD i 0
    if ¬ enc.isChar s then noAlnumLoop i str pos carry
    else
      let (neighbor, tmp) := encSuccChar enc s
      match neighbor with
      | .found => .inl (str.set i tmp)
      | _ =>
        let str := if neighbor = .wrapped then str.set i tmp else str
        -- wrapped to `\0`, which may not be a character: search the next one
        let str := if ¬ enc.isChar (str.getD i 0) then str.set i (encSuccChar enc (str.getD i 0)).2
          else str
        let carry := if ¬ enc.asciiCompat then str.getD i 0 else carry
        noAlnumLoop i str i carry

/-- `str_succ` on the bytes of a string: the loops, then the carry inserted at `carry_pos`. -/
def strSucc (str : List UInt8) : List UInt8 :=
  if str = [] then str
  else
    match strSuccLoop enc str.length str .init with
    | .inl r => r
    | .inr (str, st) =>
      let rest := if st.alnum then .inr (str, st.carryPos, st.carry)
        else noAlnumLoop enc str.length str st.carryPos st.carry
      match rest with
      | .inl r => r
      | .inr (str, carryPos, carry) => str.take carryPos ++ carry :: str.drop carryPos

end Loops

-- the examples of the documentation of `String#succ`
example : strSucc usAscii ("abcd".toList.map Char.toUInt8) = "abce".toList.map Char.toUInt8 ∧
    strSucc usAscii ("THX1138".toList.map Char.toUInt8) = "THX1139".toList.map Char.toUInt8 ∧
    strSucc usAscii ("<<koala>>".toList.map Char.toUInt8) =
      "<<koalb>>".toList.map Char.toUInt8 ∧
    strSucc usAscii ("1999zzz".toList.map Char.toUInt8) = "2000aaa".toList.map Char.toUInt8 ∧
    strSucc usAscii ("ZZZ9999".toList.map Char.toUInt8) = "AAAA0000".toList.map Char.toUInt8 ∧
    strSucc usAscii ("***".toList.map Char.toUInt8) = "**+".toList.map Char.toUInt8 := by
  decide

end CRuby.Str
