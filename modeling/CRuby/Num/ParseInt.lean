import CRuby.Util.Strtoul
import Mathlib.Data.List.TakeWhile

/-!
# `rb_int_parse_cstr` (bignum.c)

`rb_int_parse_cstr(str, len, endp, ndigits, base, flags)` reads an Integer literal: spaces and
a sign (`RB_INT_PARSE_SIGN`), a radix prefix (`RB_INT_PARSE_PREFIX`; for a base up to 0 the
prefix, or a bare leading `0` for octal, chooses the base), leading zeros squeezed, then digits
with single underscores between them (`RB_INT_PARSE_UNDERSCORE`) and trailing spaces. The
digits are read by `ruby_scan_digits` into an `unsigned long`; on an overflow or an underscore
it starts again on the bignum path, `str2big_scan_digits`.

Without `endp` (`badcheck`) anything but a whole literal is `nil`; with it, the digits read are
the value and what follows them is left to the caller, which `*endp` would point at (not
modelled). `rb_cstr_to_inum(str, base, badcheck)` calls it with `len = -1`, through
`rb_cstr_parse_inum`. The string is the memory from `str` on, as a list of bytes: `len` counts
the bytes of the literal, or is negative for a string that ends at its NUL; a read past the list
sees NUL. A position in the string is the rest of the list from it; a C pointer that may move
past a byte it has read and come back (`--str`) is modelled by keeping both.

For a string that ends at its NUL only the sign of the length is ever tested
(`intParseBody_of_neg`), so `rb_cstr_to_inum(s, 10, 0)` reads a `+` before a digit as no sign
(`rbCstrToInum_plus`) and an optional `-` and decimal digits as their value
(`rbCstrToInum_decimal`).

The value of the bignum path, which `str2big_poweroftwo`, `str2big_normal` or
`str2big_karatsuba` builds in `BDIGIT`s, is modelled by the value of the digits it reads
(`digitsValue`).
-/

namespace CRuby.Num

open CRuby.Util

/-- `ISSPACE`: a space, `\t`, `\n`, `\v`, `\f` or `\r`. -/
def isSpace (c : UInt8) : Bool := c == ' '.toUInt8 || ('\t'.toUInt8 ≤ c && c ≤ '\r'.toUInt8)

/-- The flags of `rb_int_parse_cstr`. -/
structure ParseFlags where
  /-- `RB_INT_PARSE_SIGN`: spaces and a sign before the number -/
  signOk : Bool
  /-- `RB_INT_PARSE_UNDERSCORE`: an underscore between digits -/
  underscoreOk : Bool
  /-- `RB_INT_PARSE_PREFIX`: a radix prefix -/
  prefixOk : Bool

/-- `RB_INT_PARSE_DEFAULT`. -/
def ParseFlags.default : ParseFlags := ⟨true, true, true⟩

/-- `ADV(n)`: step over `n` bytes; `goto bad` when an explicit length would run out. -/
def adv (n : ℕ) (str : List UInt8) (len : ℤ) : Option (List UInt8 × ℤ) :=
  if 0 < len ∧ len ≤ n then none else some (str.drop n, len - n)

/-- `while (ISSPACE(*str)) ADV(1);` -/
def skipSpaces : List UInt8 → ℤ → Option (List UInt8 × ℤ)
  | [], len => some ([], len)
  | c :: r, len =>
    if isSpace c then
      if 0 < len ∧ len ≤ 1 then none else skipSpaces r (len - 1)
    else some (c :: r, len)

/-- Spaces and a sign: the position after them, the length left and `sign` (`false` for `-`). -/
def parseSign (str : List UInt8) (len : ℤ) : Option (List UInt8 × ℤ × Bool) := do
  let (str, len) ← skipSpaces str len
  if str.headD 0 = '+'.toUInt8 then
    let (str, len) ← adv 1 str len
    pure (str, len, true)
  else if str.headD 0 = '-'.toUInt8 then
    let (str, len) ← adv 1 str len
    pure (str, len, false)
  else pure (str, len, true)

/-- A radix prefix `0` and one of two letters, stepped over when present. -/
def skipRadixMark (lower upper : Char) (str : List UInt8) (len : ℤ) :
    Option (List UInt8 × ℤ) :=
  if str.headD 0 = '0'.toUInt8 ∧ (str.getD 1 0 = lower.toUInt8 ∨ str.getD 1 0 = upper.toUInt8)
  then adv 2 str len
  else some (str, len)

/-- The base and the prefix: for a base up to 0, `0x`, `0b`, `0o`, `0d` or a bare `0`
choose it, else `-base` for a base below -1 and 10 otherwise; a base of 2, 8, 10 or 16 may
have its own prefix. -/
def parseRadix (str : List UInt8) (len base : ℤ) (prefixOk : Bool) :
    Option (List UInt8 × ℤ × ℤ) :=
  if base ≤ 0 then
    -- `if (str[0] == '0' && len > 1)`
    if str.headD 0 = '0'.toUInt8 ∧ len > 1 then
      let c := str.getD 1 0
      if c = 'x'.toUInt8 ∨ c = 'X'.toUInt8 then (adv 2 str len).map fun (s, l) => (s, l, 16)
      else if c = 'b'.toUInt8 ∨ c = 'B'.toUInt8 then (adv 2 str len).map fun (s, l) => (s, l, 2)
      else if c = 'o'.toUInt8 ∨ c = 'O'.toUInt8 then (adv 2 str len).map fun (s, l) => (s, l, 8)
      else if c = 'd'.toUInt8 ∨ c = 'D'.toUInt8 then
        (adv 2 str len).map fun (s, l) => (s, l, 10)
      else some (str, len, 8)
    else if base < -1 then some (str, len, -base)
    else some (str, len, 10)
  else if len = 1 ∨ ¬prefixOk then some (str, len, base)
  else if base = 2 then (skipRadixMark 'b' 'B' str len).map fun (s, l) => (s, l, base)
  else if base = 8 then (skipRadixMark 'o' 'O' str len).map fun (s, l) => (s, l, base)
  else if base = 10 then (skipRadixMark 'd' 'D' str len).map fun (s, l) => (s, l, base)
  else if base = 16 then (skipRadixMark 'x' 'X' str len).map fun (s, l) => (s, l, base)
  else some (str, len, base)

/-- For a string that ends at its NUL (`len < 0`), a base up to 0 never reads a prefix: the
test `len > 1` fails whatever the string starts with, so the base is `-base` or 10 and a
literal like `0x1A` or `017` is read in that base. -/
theorem parseRadix_of_len_neg (str : List UInt8) {len base : ℤ} (prefixOk : Bool)
    (hlen : len < 0) (hbase : base ≤ 0) :
    parseRadix str len base prefixOk = some (str, len, if base < -1 then -base else 10) := by
  have hnot : ¬(str.headD 0 = '0'.toUInt8 ∧ len > 1) := fun h => by omega
  unfold parseRadix
  rw [if_pos hbase, if_neg hnot]
  split_ifs <;> rfl

/-- The loop that squeezes the zeros after a leading `0`. `str` is at the last zero or
underscore read, `us` counts the underscores in a row and `left` is `end - str` for an
explicit length. The loop reads the next byte `c`; it ends at a byte other than `0` or `_`,
at a second underscore in a row, or at `end`; then `if (!c || ISSPACE(c)) --str;`. Returns
the position and `end - str`. -/
def squeezeZeros (underscoreOk : Bool) : List UInt8 → ℕ → Option ℤ → List UInt8 × Option ℤ
  | [], _, left => ([], left)
  | x :: next, us, left =>
    let c := next.headD 0
    let left' := left.map (· - 1)
    if c = '0'.toUInt8 ∨ (underscoreOk ∧ c = '_'.toUInt8) then
      if c = '_'.toUInt8 ∧ 2 ≤ us + 1 then (next, left')
      else if left' = some 0 then (next, left')
      else squeezeZeros underscoreOk next (if c = '_'.toUInt8 then us + 1 else 0) left'
    else if c = 0 ∨ isSpace c then (x :: next, left)
    else (next, left')

/-- The check of the fast path after the digits: `while (len < 0 ? *end : end < str + len)`
every byte must be a space. `left` is `str + len - end`, or `none` without a length. -/
def trailingSpaces (rest : List UInt8) : Option ℤ → Bool
  | some left => (List.range left.toNat).all fun i => isSpace (rest.getD i 0)
  | none => (rest.takeWhile (· ≠ 0)).all isSpace

/-- The first loop of `str2big_scan_digits`. `nondigit` says whether the last byte was `_`,
`i` bytes are read, `dend` is `digits_end - digits_start`, `len` is left of an explicit length.
Returns `none` for `goto bad`, else the position of the byte that stopped the loop, `nondigit`,
`num_digits`, `dend` and `len`. -/
def str2bigScanLoop (base : ℕ) (badcheck : Bool) :
    List UInt8 → Bool → ℕ → ℕ → ℕ → ℤ → Option (List UInt8 × Bool × ℕ × ℕ × ℤ)
  | [], nondigit, n, _, dend, len => some ([], nondigit, n, dend, len)
  | c :: r, nondigit, n, i, dend, len =>
    -- `if (len > 0 && !--len) break;`
    let next (nondigit : Bool) (n dend : ℕ) :=
      if len > 0 ∧ len - 1 = 0 then some (r, nondigit, n, dend, 0)
      else
        str2bigScanLoop base badcheck r nondigit n (i + 1) dend
          (if len > 0 then len - 1 else len)
    if c = 0 then some (c :: r, nondigit, n, dend, len)
    else if c = '_'.toUInt8 then
      if nondigit then (if badcheck then none else some (c :: r, nondigit, n, dend, len))
      else next true n dend
    else
      match rubyDigit36ToNumberTable c with
      | some d =>
        if d < base then next false (n + 1) (i + 1) else some (c :: r, nondigit, n, dend, len)
      | none => some (c :: r, nondigit, n, dend, len)

/-- The loop over trailing spaces of `str2big_scan_digits`:
`while (*str && ISSPACE(*str)) { str++; if (len > 0 && !--len) break; }`. -/
def str2bigTrailing : List UInt8 → ℤ → List UInt8 × ℤ
  | [], len => ([], len)
  | c :: r, len =>
    if c ≠ 0 ∧ isSpace c then
      if len > 0 ∧ len - 1 = 0 then (r, 0)
      else str2bigTrailing r (if len > 0 then len - 1 else len)
    else (c :: r, len)

/-- `str2big_scan_digits(s, str, base, badcheck, &num_digits, &len)`: `none` for `FALSE`, else
`num_digits` and `digits_end - digits_start`. -/
def str2bigScanDigits (base : ℕ) (badcheck : Bool) (str : List UInt8) (len : ℤ) :
    Option (ℕ × ℕ) :=
  if len = 0 then some (0, 0)
  else if badcheck ∧ str.headD 0 = '_'.toUInt8 then none
  else
    match str2bigScanLoop base badcheck str false 0 0 0 len with
    | none => none
    | some (stop, nondigit, n, dend, len) =>
      if badcheck ∧ nondigit then none
      else if badcheck ∧ len ≠ 0 then
        let (rest, len) := str2bigTrailing stop len
        if len ≠ 0 ∧ rest.headD 0 ≠ 0 then none else some (n, dend)
      else some (n, dend)

/-- The sign applied to a magnitude. -/
def applySign (sign : Bool) (v : ℕ) : ℤ := if sign then v else -v

/-- The block `/* squeeze preceding 0s */`: after a leading `0` (and a length other than 1), the
position and the length left once `squeezeZeros` has run. -/
def squeezePreceding (underscoreOk : Bool) (str : List UInt8) (len : ℤ) : List UInt8 × ℤ :=
  if str.headD 0 = '0'.toUInt8 ∧ len ≠ 1 then
    let (str', left) := squeezeZeros underscoreOk str 0 (if len < 0 then none else some len)
    (str', left.getD len)
  else (str, len)

/-- `rb_int_parse_cstr` from `val = ruby_scan_digits(str, len, base, &num_digits, &ov)` on, at a
digit of the base `b`: the value, or `nil`. Without `endp` (`badcheck`) the digits must be
followed by spaces only; the digits of an overflow or before an underscore are read again on
the bignum path. -/
def scanInt (str : List UInt8) (len : ℤ) (sign : Bool) (b : ℕ) (flags : ParseFlags)
    (endp : Bool) : Option ℤ :=
  let badcheck := !endp
  let (val, numDigits, ov) := rubyScanDigits str len b
  let bigparse : Option ℤ :=
    match str2bigScanDigits b badcheck str len with
    | none => none
    | some (_, dlen) => some (applySign sign (digitsValue b (str.take dlen)))
  if ov then bigparse
  else
    let rest := str.drop numDigits
    if 0 < numDigits ∧ rest.headD 0 = '_'.toUInt8 ∧ flags.underscoreOk then bigparse
    else if badcheck ∧ numDigits = 0 then none
    else if badcheck ∧ ¬trailingSpaces rest (if len < 0 then none else some (len - numDigits))
    then none
    else some (applySign sign val)

/-- `rb_int_parse_cstr` after the spaces and the sign: `s` is where the string starts, `str` the
position reached, `len` what is left of the length and `sign` false after `-`. The radix and
its prefix, the squeezed zeros, then a digit of the radix or `goto bad`, which gives `nil`, or
`INT2FIX(0)` when `endp` is given and `num_digits` is not 0. -/
def intParseBody (s str : List UInt8) (len : ℤ) (sign : Bool) (base : ℤ) (flags : ParseFlags)
    (endp : Bool) : Except String (Option ℤ) :=
  match parseRadix str len base flags.prefixOk with
  | none => .ok none
  | some (str, len, base) =>
    if ¬(1 < base ∧ base ≤ 36) then .error s!"invalid radix {base}"
    else if len = 0 then .ok none
    else
      -- `num_digits = str - s`, one more once zeros are squeezed: only whether it is 0 is read,
      -- by `if (!badcheck && num_digits) z = INT2FIX(0);`
      let bad : Option ℤ :=
        if endp ∧ (s.length ≠ str.length ∨ (str.headD 0 = '0'.toUInt8 ∧ len ≠ 1)) then some 0
        else none
      let (str, len) := squeezePreceding flags.underscoreOk str len
      let b := base.toNat
      match rubyDigit36ToNumberTable (str.headD 0) with
      | none => .ok bad
      | some c => if b ≤ c then .ok bad else .ok (scanInt str len sign b flags endp)

/-- `rb_int_parse_cstr(str, len, endp, NULL, base, flags)`: the value of the literal, `none` for
`nil`, or the `ArgumentError` of an invalid radix. `endp` says whether `endp` is given; where
it points is not modelled. -/
def rbIntParseCstr (s : List UInt8) (len base : ℤ) (flags : ParseFlags) (endp : Bool := false) :
    Except String (Option ℤ) :=
  let front := if len ≠ 0 ∧ flags.signOk then parseSign s len else some (s, len, true)
  match front with
  | none => .ok none
  | some (str, len, sign) => intParseBody s str len sign base flags endp

/-- The bytes of a string literal of ASCII characters. -/
def asciiBytes (s : String) : List UInt8 := s.toList.map Char.toUInt8

/-- `rb_cstr_parse_inum(str, len, endp, base)`: `rb_int_parse_cstr` with every flag. -/
def rbCstrParseInum (s : List UInt8) (len : ℤ) (endp : Bool) (base : ℤ) :
    Except String (Option ℤ) :=
  rbIntParseCstr s len base .default endp

/-- `rb_invalid_str(str, "Integer()")`, which raises `ArgumentError` with this text and the
inspected string. -/
def invalidInteger : String := "invalid value for Integer()"

/-- `rb_cstr_to_inum(str, base, badcheck)`: `rb_cstr_parse_inum(str, -1, badcheck ? NULL : &end,
base)`, whose `nil` raises with `badcheck` and is `INT2FIX(0)` without. -/
def rbCstrToInum (s : List UInt8) (base : ℤ) (badcheck : Bool) : Except String ℤ :=
  match rbCstrParseInum s (-1) (!badcheck) base with
  | .error e => .error e
  | .ok (some v) => .ok v
  | .ok none => if badcheck then .error invalidInteger else .ok 0

/-! ## Decimal digits -/

section Decimal

variable {c : UInt8}

theorem isDigitOf_ten_iff : isDigitOf 10 c = true ↔ 48 ≤ c.toNat ∧ c.toNat ≤ 57 := by
  have hsub {lo : UInt8} (h : lo ≤ c) : (c - lo).toNat = c.toNat - lo.toNat :=
    UInt8.toNat_sub_of_le _ _ h
  unfold isDigitOf rubyDigit36ToNumberTable
  split_ifs with h1 h2 h3
  · rw [decide_eq_true_iff, hsub h1.1]
    simp only [UInt8.le_iff_toNat_le] at h1
    exact ⟨fun _ => h1, fun _ => by change c.toNat - 48 < 10; omega⟩
  · -- an upper-case letter is a digit from 10 on
    simp only [UInt8.le_iff_toNat_le, decide_eq_true_iff] at h1 h2 ⊢
    change ¬(48 ≤ c.toNat ∧ c.toNat ≤ 57) at h1
    change 65 ≤ c.toNat ∧ c.toNat ≤ 90 at h2
    omega
  · simp only [UInt8.le_iff_toNat_le, decide_eq_true_iff] at h1 h3 ⊢
    change ¬(48 ≤ c.toNat ∧ c.toNat ≤ 57) at h1
    change 97 ≤ c.toNat ∧ c.toNat ≤ 122 at h3
    omega
  · simp only [UInt8.le_iff_toNat_le] at h1
    change ¬(48 ≤ c.toNat ∧ c.toNat ≤ 57) at h1
    simp only [false_iff]
    exact h1

theorem ne_of_isDigitOf_ten {d : UInt8} (hc : isDigitOf 10 c = true) (hd : isDigitOf 10 d = false) :
    c ≠ d := by
  rintro rfl
  simp_all

/-- A decimal digit is no space, and no byte the parser reads before the digits or stops at. -/
theorem isDigitOf_ten_not (hc : isDigitOf 10 c = true) :
    isSpace c = false ∧ c ≠ 0 ∧ c ≠ '_'.toUInt8 ∧ c ≠ '+'.toUInt8 ∧ c ≠ '-'.toUInt8 ∧
      c ≠ 'd'.toUInt8 ∧ c ≠ 'D'.toUInt8 := by
  have hne : ∀ d, isDigitOf 10 d = false → c ≠ d := fun _ => ne_of_isDigitOf_ten hc
  refine ⟨?_, hne _ (by decide), hne _ (by decide), hne _ (by decide), hne _ (by decide),
    hne _ (by decide), hne _ (by decide)⟩
  -- the spaces are all below `'0'`
  have h1 : ' '.toUInt8.toNat = 32 := rfl
  have h2 : '\t'.toUInt8.toNat = 9 := rfl
  have h3 : '\r'.toUInt8.toNat = 13 := rfl
  have hn := isDigitOf_ten_iff.mp hc
  simp [isSpace, UInt8.le_iff_toNat_le, UInt8.ext_iff, h1, h2, h3]
  omega

theorem digitTable_of_isDigitOf {b : ℕ} (hc : isDigitOf b c = true) :
    ∃ d, rubyDigit36ToNumberTable c = some d ∧ d < b := by
  unfold isDigitOf at hc
  split at hc
  · exact ⟨_, ‹_›, of_decide_eq_true hc⟩
  · cases hc

end Decimal

/-! ## A string that ends at its NUL

With `len < 0` every test of the length reads only its sign, so a parse goes the same way
whatever negative length it is given (`intParseBody_of_neg`). -/

section Nul

variable {len : ℤ}

theorem adv_of_neg (hlen : len < 0) (n : ℕ) (str : List UInt8) :
    adv n str len = some (str.drop n, len - n) :=
  if_neg fun h => absurd h.1 (by omega)

theorem rubyScanDigitsLoop_of_neg (hlen : len < 0) (base : ℕ) (r : List UInt8) (ret : ℕ)
    (ov : Bool) (n : ℕ) :
    rubyScanDigitsLoop base r len ret ov n = rubyScanDigitsLoop base r (-1) ret ov n := by
  induction r generalizing ret ov n with
  | nil => rfl
  | cons c r ih => simp only [rubyScanDigitsLoop, if_pos hlen, if_pos (show (-1 : ℤ) < 0 by decide), ih]

theorem rubyScanDigits_of_neg (hlen : len < 0) (str : List UInt8) (base : ℕ) :
    rubyScanDigits str len base = rubyScanDigits str (-1) base := by
  rw [rubyScanDigits, rubyScanDigits, if_neg hlen.ne, if_neg (by decide),
    rubyScanDigitsLoop_of_neg hlen]

/-- The first loop of `str2big_scan_digits` returns a negative length as it was given. -/
theorem str2bigScanLoop_of_neg (hlen : len < 0) (base : ℕ) (badcheck : Bool) (r : List UInt8)
    (nondigit : Bool) (n i dend : ℕ) :
    str2bigScanLoop base badcheck r nondigit n i dend len =
      (str2bigScanLoop base badcheck r nondigit n i dend (-1)).map
        fun x => (x.1, x.2.1, x.2.2.1, x.2.2.2.1, len) := by
  induction r generalizing nondigit n i dend with
  | nil => rfl
  | cons c r ih =>
    have hstep : ¬(len > 0 ∧ len - 1 = 0) := fun h => absurd h.1 (by omega)
    have hstep' : ¬((-1 : ℤ) > 0 ∧ -1 - 1 = 0) := by decide
    simp only [str2bigScanLoop, if_neg hstep, if_neg hstep', if_neg (not_lt.mpr hlen.le),
      if_neg (show ¬(-1 : ℤ) > 0 by decide), ih]
    split_ifs <;> try rfl
    split <;> (try split_ifs) <;> rfl

theorem str2bigScanLoop_len (hlen : len < 0) {base : ℕ} {badcheck : Bool} {r : List UInt8}
    {nondigit : Bool} {n i dend : ℕ} {x : List UInt8 × Bool × ℕ × ℕ × ℤ}
    (hx : str2bigScanLoop base badcheck r nondigit n i dend len = some x) : x.2.2.2.2 = len := by
  rw [str2bigScanLoop_of_neg hlen, Option.map_eq_some_iff] at hx
  obtain ⟨_, _, rfl⟩ := hx
  rfl

theorem str2bigTrailing_of_neg (hlen : len < 0) (r : List UInt8) :
    str2bigTrailing r len = ((str2bigTrailing r (-1)).1, len) := by
  induction r with
  | nil => rfl
  | cons c r ih =>
    have hstep : ¬(len > 0 ∧ len - 1 = 0) := fun h => absurd h.1 (by omega)
    have hstep' : ¬((-1 : ℤ) > 0 ∧ -1 - 1 = 0) := by decide
    simp only [str2bigTrailing, if_neg hstep, if_neg hstep', if_neg (not_lt.mpr hlen.le),
      if_neg (show ¬(-1 : ℤ) > 0 by decide), ih]
    split_ifs <;> rfl

theorem str2bigScanDigits_of_neg (hlen : len < 0) (base : ℕ) (badcheck : Bool)
    (str : List UInt8) :
    str2bigScanDigits base badcheck str len = str2bigScanDigits base badcheck str (-1) := by
  unfold str2bigScanDigits
  rw [if_neg hlen.ne, if_neg (show (-1 : ℤ) ≠ 0 by decide), str2bigScanLoop_of_neg hlen]
  rcases hx : str2bigScanLoop base badcheck str false 0 0 0 (-1) with _ | ⟨stop, nondigit, n, dend, l⟩
  · rfl
  · have hl : l = -1 := str2bigScanLoop_len (by decide) hx
    subst hl
    dsimp only [Option.map_some]
    rw [str2bigTrailing_of_neg hlen stop,
      str2bigTrailing_of_neg (show (-1 : ℤ) < 0 by decide) stop]
    simp only [ne_eq, hlen.ne, show (-1 : ℤ) ≠ 0 by decide, not_false_eq_true, true_and]

theorem scanInt_of_neg (hlen : len < 0) (str : List UInt8) (sign : Bool) (b : ℕ)
    (flags : ParseFlags) (endp : Bool) :
    scanInt str len sign b flags endp = scanInt str (-1) sign b flags endp := by
  simp only [scanInt, rubyScanDigits_of_neg hlen, str2bigScanDigits_of_neg hlen, if_pos hlen,
    if_pos (show (-1 : ℤ) < 0 by decide)]

theorem squeezeZeros_none (underscoreOk : Bool) (str : List UInt8) (us : ℕ) :
    (squeezeZeros underscoreOk str us none).2 = none := by
  induction str generalizing us with
  | nil => rfl
  | cons x next ih =>
    simp only [squeezeZeros, Option.map_none]
    split_ifs <;> first | rfl | exact ih _

theorem squeezePreceding_of_neg (hlen : len < 0) (underscoreOk : Bool) (str : List UInt8) :
    squeezePreceding underscoreOk str len = ((squeezePreceding underscoreOk str (-1)).1, len) := by
  simp only [squeezePreceding, if_pos hlen, if_pos (show (-1 : ℤ) < 0 by decide),
    squeezeZeros_none, Option.getD_none, ne_eq, show len ≠ 1 by omega,
    show (-1 : ℤ) ≠ 1 by decide, not_false_eq_true, and_true]
  split_ifs <;> rfl

/-- `parseRadix` steps over the same prefix whatever negative length it is given. -/
theorem parseRadix_of_neg (hlen : len < 0) (str : List UInt8) (base : ℤ) (prefixOk : Bool) :
    parseRadix str len base prefixOk =
      (parseRadix str (-1) base prefixOk).map fun r => (r.1, r.2.1 + (len + 1), r.2.2) := by
  have hmark (lo up : Char) : skipRadixMark lo up str len =
      (skipRadixMark lo up str (-1)).map fun r => (r.1, r.2 + (len + 1)) := by
    unfold skipRadixMark
    split_ifs
    · rw [adv_of_neg hlen, adv_of_neg (by decide), Option.map_some]
      congr 2
      omega
    · simp
  unfold parseRadix
  split_ifs <;> simp_all [Option.map_map, Function.comp_def] <;> omega

theorem parseRadix_len_neg (hlen : len < 0) {str : List UInt8} {base : ℤ} {prefixOk : Bool}
    {r : List UInt8 × ℤ × ℤ} (hr : parseRadix str len base prefixOk = some r) : r.2.1 < 0 := by
  have hmark {lo up : Char} {q : List UInt8 × ℤ} (h : skipRadixMark lo up str len = some q) :
      q.2 < 0 := by
    unfold skipRadixMark at h
    split_ifs at h
    · rw [adv_of_neg hlen] at h
      cases h
      dsimp only
      omega
    · cases h
      exact hlen
  unfold parseRadix at hr
  split_ifs at hr <;> first
    | (cases hr; exact hlen)
    | (obtain ⟨q, hq, rfl⟩ := Option.map_eq_some_iff.mp hr; exact hmark hq)
    | omega

/-- **A negative length is only a sign**: from the radix on, `rb_int_parse_cstr` on a string that
ends at its NUL does not depend on the length it is given. -/
theorem intParseBody_of_neg (hlen : len < 0) (s str : List UInt8) (sign : Bool) (base : ℤ)
    (flags : ParseFlags) (endp : Bool) :
    intParseBody s str len sign base flags endp = intParseBody s str (-1) sign base flags endp := by
  unfold intParseBody
  rw [parseRadix_of_neg hlen]
  rcases hr : parseRadix str (-1) base flags.prefixOk with _ | ⟨str', l, b⟩
  · rfl
  · have hl : l < 0 := parseRadix_len_neg (by decide) hr
    have hl' : l + (len + 1) < 0 := by omega
    simp only [Option.map_some, squeezePreceding_of_neg hl', squeezePreceding_of_neg hl,
      scanInt_of_neg hl', scanInt_of_neg hl, ne_eq, hl.ne, hl'.ne, show l ≠ 1 by omega,
      show l + (len + 1) ≠ 1 by omega, not_false_eq_true, and_true]

end Nul

/-! ## `rb_cstr_to_inum(s, 10, 0)` on decimal digits -/

section Inum

variable {ds : List UInt8}

theorem skipSpaces_of_not_space {c : UInt8} (hc : isSpace c = false) (r : List UInt8) (len : ℤ) :
    skipSpaces (c :: r) len = some (c :: r, len) := by
  rw [skipSpaces, if_neg (by simp [hc])]

theorem parseSign_of_isDigitOf {c : UInt8} (hc : isDigitOf 10 c = true) (r : List UInt8) (len : ℤ) :
    parseSign (c :: r) len = some (c :: r, len, true) := by
  obtain ⟨hsp, -, -, hplus, hminus, -⟩ := isDigitOf_ten_not hc
  simp [parseSign, skipSpaces_of_not_space hsp, hplus, hminus]

theorem parseSign_minus (l : List UInt8) : parseSign ('-'.toUInt8 :: l) (-1) = some (l, -2, false) := by
  simp only [parseSign, skipSpaces_of_not_space (show isSpace '-'.toUInt8 = false by decide)]
  rfl

theorem parseSign_plus (l : List UInt8) : parseSign ('+'.toUInt8 :: l) (-1) = some (l, -2, true) := by
  simp only [parseSign, skipSpaces_of_not_space (show isSpace '+'.toUInt8 = false by decide)]
  rfl

/-- The zeros squeezed before decimal digits leave digits of the same value. -/
theorem squeezeZeros_digits (underscoreOk : Bool) {next : List UInt8}
    (hnext : ∀ c ∈ next, isDigitOf 10 c = true) (us : ℕ) :
    ∃ ds', squeezeZeros underscoreOk ('0'.toUInt8 :: next) us none = (ds', none) ∧ ds' ≠ [] ∧
      (∀ c ∈ ds', isDigitOf 10 c = true) ∧
      digitsValue 10 ds' = digitsValue 10 ('0'.toUInt8 :: next) := by
  induction next generalizing us with
  | nil =>
    refine ⟨['0'.toUInt8], ?_, by simp, by simp [isDigitOf_zero], rfl⟩
    simp [squeezeZeros, show (0 : UInt8) ≠ '0'.toUInt8 by decide,
      show (0 : UInt8) ≠ '_'.toUInt8 by decide]
  | cons d r ih =>
    have hd := hnext d List.mem_cons_self
    obtain ⟨hsp, h0, hu, -⟩ := isDigitOf_ten_not hd
    have hr : ∀ c ∈ r, isDigitOf 10 c = true := fun c hc => hnext c (List.mem_cons_of_mem _ hc)
    by_cases hz : d = '0'.toUInt8
    · -- another zero: the loop goes on from it
      subst hz
      obtain ⟨ds', hsq, hne, hdig, hval⟩ := ih hr 0
      refine ⟨ds', ?_, hne, hdig, by rw [hval, digitsValue_zero_cons 10 ('0'.toUInt8 :: r)]⟩
      simp only [squeezeZeros, List.headD_cons, true_or, if_true, Option.map_none,
        show ('0'.toUInt8 = '_'.toUInt8) = False by decide, false_and, if_false, reduceCtorEq]
      exact hsq
    · -- the first digit other than `0`: the loop stops before it
      refine ⟨d :: r, ?_, List.cons_ne_nil _ _, hnext, (digitsValue_zero_cons 10 _).symm⟩
      simp [squeezeZeros, hz, hu, h0, hsp]

/-- The first loop of `str2big_scan_digits` reads a run of digits to its end. -/
theorem str2bigScanLoop_digits {b : ℕ} (badcheck : Bool) {len : ℤ} (hlen : len < 0)
    {r : List UInt8} (hr : ∀ c ∈ r, isDigitOf 10 c = true) (hb : 10 ≤ b) (n i : ℕ) :
    str2bigScanLoop b badcheck r false n i i len =
      some ([], false, n + r.length, i + r.length, len) := by
  induction r generalizing n i with
  | nil => rfl
  | cons c r ih =>
    obtain ⟨-, h0, hu, -⟩ := isDigitOf_ten_not (hr c List.mem_cons_self)
    obtain ⟨d, hd, hd10⟩ := digitTable_of_isDigitOf (hr c List.mem_cons_self)
    have hstep : ¬(len > 0 ∧ len - 1 = 0) := fun h => absurd h.1 (by omega)
    simp only [str2bigScanLoop, if_neg h0, if_neg hu, hd, if_pos (show d < b by omega),
      if_neg hstep, if_neg (not_lt.mpr hlen.le)]
    rw [ih (fun c hc => hr c (List.mem_cons_of_mem _ hc)), List.length_cons]
    simp only [Option.some.injEq, Prod.mk.injEq, true_and, and_true]
    omega

/-- On a run of decimal digits, the scan gives their value, on the fast path or the bignum
one. -/
theorem scanInt_digits (hds : ∀ c ∈ ds, isDigitOf 10 c = true) (sign : Bool)
    (flags : ParseFlags) :
    scanInt ds (-1) sign 10 flags true = some (applySign sign (digitsValue 10 ds)) := by
  obtain ⟨hn, hinv⟩ := rubyScanDigits_spec ds 10 (by decide)
  rw [List.takeWhile_eq_self_iff.mpr hds] at hn hinv
  have hbig : str2bigScanDigits 10 false ds (-1) = some (ds.length, ds.length) := by
    rw [str2bigScanDigits, if_neg (by decide), if_neg (by simp),
      str2bigScanLoop_digits false (by decide) hds le_rfl 0 0]
    simp
  rcases hscan : rubyScanDigits ds (-1) 10 with ⟨val, n, ov⟩
  rw [hscan] at hn hinv
  dsimp only at hn hinv
  subst hn
  rcases hinv with ⟨rfl, rfl, -⟩ | ⟨rfl, -⟩
  · -- no overflow: the whole run is read and nothing follows it
    simp [scanInt, hscan, show ((0 : UInt8) = '_'.toUInt8) = False by decide]
  · simp [scanInt, hscan, hbig]

/-- From the radix on, a run of decimal digits is read as its value. -/
theorem intParseBody_digits (hne : ds ≠ []) (hds : ∀ c ∈ ds, isDigitOf 10 c = true)
    (s : List UInt8) (sign : Bool) :
    intParseBody s ds (-1) sign 10 .default true = .ok (some (applySign sign (digitsValue 10 ds))) := by
  obtain ⟨c, r, rfl⟩ := List.exists_cons_of_ne_nil hne
  have hc := hds c List.mem_cons_self
  have hr : ∀ x ∈ r, isDigitOf 10 x = true := fun x hx => hds x (List.mem_cons_of_mem _ hx)
  -- the byte after the first digit is a digit or the NUL, so no `0d` prefix
  have hsecond : (c :: r).getD 1 0 ≠ 'd'.toUInt8 ∧ (c :: r).getD 1 0 ≠ 'D'.toUInt8 := by
    cases r with
    | nil =>
      change (0 : UInt8) ≠ 'd'.toUInt8 ∧ (0 : UInt8) ≠ 'D'.toUInt8
      decide
    | cons d r' =>
      obtain ⟨-, -, -, -, -, hd, hD⟩ := isDigitOf_ten_not (hr d List.mem_cons_self)
      exact ⟨hd, hD⟩
  have hmark : skipRadixMark 'd' 'D' (c :: r) (-1) = some (c :: r, -1) :=
    if_neg fun h => h.2.elim hsecond.1 hsecond.2
  have hradix : parseRadix (c :: r) (-1) 10 true = some (c :: r, -1, 10) := by
    rw [parseRadix, if_neg (by decide), if_neg (by decide), if_neg (by decide), if_neg (by decide),
      if_pos rfl, hmark]
    rfl
  -- the squeezed zeros leave a run of digits of the same value
  obtain ⟨ds', hsq, hne', hds', hval⟩ : ∃ ds', squeezePreceding true (c :: r) (-1) = (ds', -1) ∧
      ds' ≠ [] ∧ (∀ x ∈ ds', isDigitOf 10 x = true) ∧ digitsValue 10 ds' = digitsValue 10 (c :: r) := by
    by_cases hz : c = '0'.toUInt8
    · subst hz
      obtain ⟨ds', hsq, hne', hds', hval⟩ := squeezeZeros_digits true hr 0
      refine ⟨ds', ?_, hne', hds', hval⟩
      simp [squeezePreceding, hsq]
    · exact ⟨c :: r, by simp [squeezePreceding, hz], hne, hds, rfl⟩
  obtain ⟨c', r', rfl⟩ := List.exists_cons_of_ne_nil hne'
  obtain ⟨d, hd, hd10⟩ := digitTable_of_isDigitOf (hds' c' List.mem_cons_self)
  dsimp only [intParseBody, ParseFlags.default]
  rw [hradix]
  simp only [hsq, List.headD_cons, hd, ← hval]
  simp [show ¬10 ≤ d by omega, scanInt_digits hds']

/-- Without `badcheck`, `rb_cstr_to_inum` turns `nil` into 0. -/
theorem rbCstrToInum_false (s : List UInt8) (base : ℤ) :
    rbCstrToInum s base false = (rbCstrParseInum s (-1) true base).map (·.getD 0) := by
  rw [rbCstrToInum, Bool.not_false]
  rcases rbCstrParseInum s (-1) true base with _ | _ | _ <;> rfl

/-- Where the string starts is read only for the choice between `nil` and 0. -/
theorem intParseBody_getD (s₁ s₂ str : List UInt8) (len : ℤ) (sign : Bool) (base : ℤ)
    (flags : ParseFlags) :
    (intParseBody s₁ str len sign base flags true).map (·.getD 0) =
      (intParseBody s₂ str len sign base flags true).map (·.getD 0) := by
  unfold intParseBody
  rcases parseRadix str len base flags.prefixOk with _ | ⟨str', l, b⟩
  · rfl
  · dsimp only
    -- the branches differ only where the two sides read `bad`, which is 0 or `nil`
    split_ifs <;> try rfl
    all_goals
      rcases rubyDigit36ToNumberTable ((squeezePreceding flags.underscoreOk str' l).1.headD 0)
        with _ | d
      · rfl
      · dsimp only
        split_ifs <;> rfl

/-- `rb_cstr_to_inum(s, 10, 0)` reads an optional `-` and decimal digits as their value. -/
theorem rbCstrToInum_decimal (neg : Bool) (hne : ds ≠ []) (hds : ∀ c ∈ ds, isDigitOf 10 c = true) :
    rbCstrToInum ((if neg then ['-'.toUInt8] else []) ++ ds) 10 false =
      .ok (applySign (!neg) (digitsValue 10 ds)) := by
  obtain ⟨c, r, rfl⟩ := List.exists_cons_of_ne_nil hne
  have hfront : ParseFlags.default.signOk = true := rfl
  -- a `-` is stepped over and leaves one byte less of the length, which is still negative
  have hsign : parseSign ((if neg then ['-'.toUInt8] else []) ++ c :: r) (-1) =
      some (c :: r, if neg then -2 else -1, !neg) := by
    cases neg with
    | true => exact parseSign_minus _
    | false => exact parseSign_of_isDigitOf (hds c List.mem_cons_self) r (-1)
  have hlen : (if neg then -2 else -1 : ℤ) < 0 := by split_ifs <;> decide
  simp only [rbCstrToInum_false, rbCstrParseInum, rbIntParseCstr, ne_eq,
    show (-1 : ℤ) ≠ 0 by decide, not_false_eq_true, hfront, and_self, if_true, hsign,
    intParseBody_of_neg hlen, intParseBody_digits hne hds]
  rfl

/-- `rb_cstr_to_inum(s, 10, 0)` reads a `+` before a digit as no sign: past it, only the length
left differs, by its value and not its sign, and where the string starts. -/
theorem rbCstrToInum_plus {c : UInt8} (hc : isDigitOf 10 c = true) (l : List UInt8) :
    rbCstrToInum ('+'.toUInt8 :: c :: l) 10 false = rbCstrToInum (c :: l) 10 false := by
  have hfront : ParseFlags.default.signOk = true := rfl
  simp only [rbCstrToInum_false, rbCstrParseInum, rbIntParseCstr, ne_eq,
    show (-1 : ℤ) ≠ 0 by decide, not_false_eq_true, hfront, and_self, if_true, parseSign_plus,
    parseSign_of_isDigitOf hc, intParseBody_of_neg (show (-2 : ℤ) < 0 by decide)]
  exact intParseBody_getD _ _ _ _ _ _ _

end Inum

end CRuby.Num
