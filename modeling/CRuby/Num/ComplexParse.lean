import CRuby.Num.ParseInt
import CRuby.Str.Succ

/-!
# Reading a `Complex` (complex.c)

`parse_comp(s, strict, &num)` reads a complex number from a C string by recursive descent.
`read_comp` reads a signed number, then either `i`, or `@` and a polar argument, or a sign and an
imaginary part. Each number's bytes are copied through a second pointer `b` into a side buffer,
and `str2num` converts the buffer: to a Rational if it holds a `/`, to a Float if it holds a `.`,
`e` or `E`, and to an Integer otherwise. `read_digits` reads digits with underscores between
them; in strict mode a second underscore in a row fails it. It then backs the cursor up over
trailing underscores.

The reader's state (`Rd`) is the position of `*s` in the string and the bytes written since the
number began (`bb`). A string is the list of its bytes, and reading at its end sees the NUL.
The conversions that `str2num` calls (`rb_cstr_to_rat`, `rb_cstr_to_dbl`, `rb_cstr_to_inum`) and
`rb_complex_polar` are parameters (`Conv`), over any type of numbers.

Strict mode only rejects more: where it accepts a string, every read on the way succeeded, so
the non-strict reader takes the same path and reads the same complex
(`stringToC_of_stringToCStrict`).
-/

namespace CRuby.Num

open CRuby.Str

/-- `**s`: the byte at `i`, or the NUL after the string. -/
def peek (s : List UInt8) (i : ℕ) : UInt8 := s.getD i 0

/-- `isdecimal`: `isdigit((unsigned char)c)`. -/
def isdecimal (c : UInt8) : Bool := asciiDigit c

def issign (c : UInt8) : Bool := c == '-'.toUInt8 || c == '+'.toUInt8

def islettere (c : UInt8) : Bool := c == 'e'.toUInt8 || c == 'E'.toUInt8

def isimagunit (c : UInt8) : Bool :=
  c == 'i'.toUInt8 || c == 'I'.toUInt8 || c == 'j'.toUInt8 || c == 'J'.toUInt8

/-- The two cursors of the reader: the position of `*s`, and the bytes written through `*b` since
the number being read began. -/
structure Rd where
  pos : ℕ
  buf : List UInt8
  deriving DecidableEq, Repr

/-- `**b = **s; (*s)++; (*b)++;` for the byte `c` at `*s`. -/
def Rd.copy (r : Rd) (c : UInt8) : Rd := ⟨r.pos + 1, r.buf ++ [c]⟩

/-- `(*b)--`: the last byte written is taken back. -/
def Rd.unwrite (r : Rd) : Rd := { r with buf := r.buf.dropLast }

/-! ## Numbers -/

section Read

variable (s : List UInt8) (strict : Bool)

/-- `read_sign(s, b)`: a sign is copied; the sign, or `?`. -/
def readSign (r : Rd) : UInt8 × Rd :=
  if issign (peek s r.pos) then (peek s r.pos, r.copy (peek s r.pos)) else ('?'.toUInt8, r)

/-- The loop of `read_digits` over the bytes from `*s` on, with `us` (the last byte was an
underscore): digits are copied, underscores skipped, and a second underscore in a row fails in
strict mode. Whether it ends well, `us`, and the state. -/
def digitsLoop : List UInt8 → Bool → Rd → Bool × Bool × Rd
  | c :: rest, us, r =>
    if isdecimal c then digitsLoop rest false (r.copy c)
    else if c = '_'.toUInt8 then
      if strict && us then (false, us, r) else digitsLoop rest true { r with pos := r.pos + 1 }
    else (true, us, r)
  | [], us, r => (true, us, r)

/-- `do { (*s)--; } while (**s == '_');` -/
def backOverUnderscores : ℕ → ℕ
  | 0 => 0
  | p + 1 => if peek s p = '_'.toUInt8 then backOverUnderscores p else p

/-- `read_digits(s, strict, b)`. -/
def readDigits (r : Rd) : Bool × Rd :=
  if !isdecimal (peek s r.pos) then (false, r)
  else
    match digitsLoop strict (s.drop r.pos) true r with
    | (false, _, r) => (false, r)
    | (true, us, r) => (true, if us then { r with pos := backOverUnderscores s r.pos } else r)

/-- The exponent of `read_num`: `e` or `E`, a sign, digits. -/
def readExp (r : Rd) : Bool × Rd :=
  if islettere (peek s r.pos) then
    match readDigits s strict (readSign s (r.copy (peek s r.pos))).2 with
    | (false, r) => (false, r.unwrite)
    | (true, r) => (true, r)
  else (true, r)

/-- The fraction of `read_num`, `.` and digits, then the exponent. -/
def readFrac (r : Rd) : Bool × Rd :=
  if peek s r.pos = '.'.toUInt8 then
    match readDigits s strict (r.copy '.'.toUInt8) with
    | (false, r) => (false, r.unwrite)
    | (true, r) => readExp s strict r
  else readExp s strict r

/-- `read_num(s, strict, b)`: digits unless the number starts with `.`, then the fraction and the
exponent. -/
def readNum (r : Rd) : Bool × Rd :=
  if peek s r.pos ≠ '.'.toUInt8 then
    match readDigits s strict r with
    | (false, r) => (false, r)
    | (true, r) => readFrac s strict r
  else readFrac s strict r

/-- `read_rat_nos(s, strict, b)`: a number, then `/` and a denominator (`read_den`). -/
def readRatNos (r : Rd) : Bool × Rd :=
  match readNum s strict r with
  | (false, r) => (false, r)
  | (true, r) =>
    if peek s r.pos = '/'.toUInt8 then
      match readDigits s strict (r.copy '/'.toUInt8) with
      | (false, r) => (false, r.unwrite)
      | (true, r) => (true, r)
    else (true, r)

/-- `read_rat(s, strict, b)`. -/
def readRat (r : Rd) : Bool × Rd := readRatNos s strict (readSign s r).2

end Read

/-! ## `str2num` and `read_comp` -/

/-- What `str2num` and `read_comp` call, on numbers `N`. -/
structure Conv (N : Type) where
  /-- `rb_cstr_to_rat(s, 0)` -/
  cstrToRat : List UInt8 → N
  /-- `DBL2NUM(rb_cstr_to_dbl(s, 0))` -/
  cstrToDbl : List UInt8 → N
  /-- `rb_cstr_to_inum(s, 10, 0)` -/
  cstrToInum : List UInt8 → N
  /-- `INT2FIX(n)` -/
  int2fix : ℤ → N
  /-- `rb_complex_polar(abs, arg)`, as its two parts -/
  complexPolar : N → N → N × N

variable {N : Type}

/-- `str2num(s)`: `strchr(s, '/')`, then `strpbrk(s, ".eE")`, choose the conversion. -/
def str2num (conv : Conv N) (b : List UInt8) : N :=
  if '/'.toUInt8 ∈ b then conv.cstrToRat b
  else if b.any fun c => c == '.'.toUInt8 || islettere c then conv.cstrToDbl b
  else conv.cstrToInum b

/-- `strlen(bb) >= 1 && isdecimal(*(bb + strlen(bb) - 1))`. -/
def lastIsDecimal (b : List UInt8) : Bool :=
  match b.getLast? with
  | some c => isdecimal c
  | none => false

/-- `INT2FIX((sign == '-') ? -1 : + 1)`. -/
def unitOf (conv : Conv N) (sign : UInt8) : N := conv.int2fix (if sign = '-'.toUInt8 then -1 else 1)

section ReadComp

variable (s : List UInt8) (conv : Conv N) (strict : Bool)

/-- The branch of `read_comp` after `@` at `pos`: the argument of a polar form, which must end in
a digit. Whether `read_rat` ended well, `*ret`, and the position. -/
def readCompPolar (num : N) (pos : ℕ) : Bool × (N × N) × ℕ :=
  let r := (readRat s strict ⟨pos, []⟩).2
  if lastIsDecimal r.buf then
    ((readRat s strict ⟨pos, []⟩).1, conv.complexPolar num (str2num conv r.buf), r.pos)
  else (false, (num, conv.int2fix 0), r.pos)

/-- The branch of `read_comp` at a sign after the first number: `i` alone, or a number and `i`. -/
def readCompImag (num : N) (pos : ℕ) : Bool × (N × N) × ℕ :=
  let sr := readSign s ⟨pos, []⟩
  if isimagunit (peek s sr.2.pos) then (true, (num, unitOf conv sr.1), sr.2.pos + 1)
  else
    match readRatNos s strict sr.2 with
    | (false, r) => (false, (num, conv.int2fix 0), r.pos)
    | (true, r) =>
      if isimagunit (peek s r.pos) then (true, (num, str2num conv r.buf), r.pos + 1)
      else (false, (num, conv.int2fix 0), r.pos)

/-- `read_comp(s, strict, &ret, &b)` from `pos`: whether it ended well, `*ret` as its two parts,
and the position of `*s`. -/
def readComp (pos : ℕ) : Bool × (N × N) × ℕ :=
  let sr := readSign s ⟨pos, []⟩
  if isimagunit (peek s sr.2.pos) then (true, (conv.int2fix 0, unitOf conv sr.1), sr.2.pos + 1)
  else
    match readRatNos s strict sr.2 with
    | (false, r) => (false, (str2num conv r.buf, conv.int2fix 0), r.pos)
    | (true, r) =>
      if isimagunit (peek s r.pos) then (true, (conv.int2fix 0, str2num conv r.buf), r.pos + 1)
      else if peek s r.pos = '@'.toUInt8 then readCompPolar s conv strict (str2num conv r.buf) (r.pos + 1)
      else if issign (peek s r.pos) then readCompImag s conv strict (str2num conv r.buf) r.pos
      else (true, (str2num conv r.buf, conv.int2fix 0), r.pos)

/-- `skip_ws`: the position after the spaces from `pos` on. -/
def skipWs (pos : ℕ) : ℕ := pos + ((s.drop pos).takeWhile isSpace).length

/-- `parse_comp(s, strict, &num)`: whether the string is accepted, and the complex read. Strict
mode accepts only when spaces and the end follow the number. -/
def parseComp : Bool × (N × N) :=
  let r := readComp s conv strict (skipWs s 0)
  if !r.1 then (false, r.2.1)
  else if strict && peek s (skipWs s r.2.2) ≠ 0 then (false, r.2.1)
  else (true, r.2.1)

end ReadComp

/-- The `ArgumentError`s of `string_to_c_strict`. -/
inductive StrictError where
  /-- `"string contains null byte"` -/
  | nullByte
  /-- `"invalid value for convert(): %+"PRIsVALUE`, with the inspected string -/
  | invalid
  deriving DecidableEq, Repr

/-- `string_to_c_strict(self)` (`Kernel#Complex` of a string). -/
def stringToCStrict (conv : Conv N) (s : List UInt8) : Except StrictError (N × N) :=
  if 0 ∈ s then .error .nullByte
  else if (parseComp s conv true).1 then .ok (parseComp s conv true).2
  else .error .invalid

/-- `string_to_c(self)` (`String#to_c`): the complex read, accepted or not. -/
def stringToC (conv : Conv N) (s : List UInt8) : N × N := (parseComp s conv false).2

end CRuby.Num

namespace CRuby.Num

/-! ## Strict mode only rejects more -/

section Strict

variable (s : List UInt8) {r r' : Rd}

theorem digitsLoop_of_strict {l : List UInt8} {us us' : Bool}
    (h : digitsLoop true l us r = (true, us', r')) : digitsLoop false l us r = (true, us', r') := by
  induction l generalizing us r with
  | nil => exact h
  | cons c rest ih =>
    unfold digitsLoop at h ⊢
    by_cases hd : isdecimal c
    · rw [if_pos hd] at h ⊢
      exact ih h
    · rw [if_neg hd] at h ⊢
      by_cases hu : c = '_'.toUInt8
      · rw [if_pos hu] at h ⊢
        cases us
        · -- an underscore after a digit: both modes skip it
          simp only [Bool.and_false, Bool.false_eq_true, if_false] at h ⊢
          exact ih h
        · -- a second underscore: the strict loop failed
          simp at h
      · rw [if_neg hu] at h ⊢
        exact h

theorem readDigits_of_strict (h : readDigits s true r = (true, r')) :
    readDigits s false r = (true, r') := by
  unfold readDigits at h ⊢
  split_ifs at h ⊢
  · exact h
  · rcases hl : digitsLoop true (s.drop r.pos) true r with ⟨_ | _, us, r1⟩
    · rw [hl] at h
      cases h
    · rw [hl] at h
      rw [digitsLoop_of_strict hl]
      exact h

theorem readExp_of_strict (h : readExp s true r = (true, r')) : readExp s false r = (true, r') := by
  unfold readExp at h ⊢
  split_ifs at h ⊢
  · rcases hd : readDigits s true (readSign s (r.copy (peek s r.pos))).2 with ⟨_ | _, r1⟩
    · rw [hd] at h
      cases h
    · rw [hd] at h
      rw [readDigits_of_strict s hd]
      exact h
  · exact h

theorem readFrac_of_strict (h : readFrac s true r = (true, r')) : readFrac s false r = (true, r') := by
  unfold readFrac at h ⊢
  split_ifs at h ⊢
  · rcases hd : readDigits s true (r.copy '.'.toUInt8) with ⟨_ | _, r1⟩
    · rw [hd] at h
      cases h
    · rw [hd] at h
      rw [readDigits_of_strict s hd]
      exact readExp_of_strict s h
  · exact readExp_of_strict s h

theorem readNum_of_strict (h : readNum s true r = (true, r')) : readNum s false r = (true, r') := by
  unfold readNum at h ⊢
  split_ifs at h ⊢
  · rcases hd : readDigits s true r with ⟨_ | _, r1⟩
    · rw [hd] at h
      cases h
    · rw [hd] at h
      rw [readDigits_of_strict s hd]
      exact readFrac_of_strict s h
  · exact readFrac_of_strict s h

theorem readRatNos_of_strict (h : readRatNos s true r = (true, r')) :
    readRatNos s false r = (true, r') := by
  unfold readRatNos at h ⊢
  rcases hn : readNum s true r with ⟨_ | _, r1⟩
  · rw [hn] at h
    cases h
  · rw [hn] at h
    rw [readNum_of_strict s hn]
    dsimp only at h ⊢
    split_ifs at h ⊢
    · rcases hd : readDigits s true (r1.copy '/'.toUInt8) with ⟨_ | _, r2⟩
      · rw [hd] at h
        cases h
      · rw [hd] at h
        rw [readDigits_of_strict s hd]
        exact h
    · exact h

theorem readRat_of_strict (h : readRat s true r = (true, r')) : readRat s false r = (true, r') :=
  readRatNos_of_strict s h

variable (conv : Conv N)

theorem readCompPolar_of_strict {num : N} {pos : ℕ}
    (h : (readCompPolar s conv true num pos).1 = true) :
    readCompPolar s conv false num pos = readCompPolar s conv true num pos := by
  unfold readCompPolar at h ⊢
  dsimp only at h ⊢
  split_ifs at h with hl
  · -- the polar form is accepted only when `read_rat` ended well
    rcases hr : readRat s true ⟨pos, []⟩ with ⟨_ | _, r1⟩
    · rw [hr] at h
      cases h
    · rw [readRat_of_strict s hr]

theorem readCompImag_of_strict {num : N} {pos : ℕ}
    (h : (readCompImag s conv true num pos).1 = true) :
    readCompImag s conv false num pos = readCompImag s conv true num pos := by
  unfold readCompImag at h ⊢
  dsimp only at h ⊢
  split_ifs at h ⊢
  · rfl
  · rcases hr : readRatNos s true (readSign s ⟨pos, []⟩).2 with ⟨_ | _, r1⟩
    · rw [hr] at h
      cases h
    · rw [readRatNos_of_strict s hr]

theorem readComp_of_strict {pos : ℕ} (h : (readComp s conv true pos).1 = true) :
    readComp s conv false pos = readComp s conv true pos := by
  unfold readComp at h ⊢
  dsimp only at h ⊢
  split_ifs at h ⊢
  · rfl
  · rcases hr : readRatNos s true (readSign s ⟨pos, []⟩).2 with ⟨_ | _, r1⟩
    · rw [hr] at h
      cases h
    · rw [readRatNos_of_strict s hr]
      rw [hr] at h
      dsimp only at h ⊢
      split_ifs at h ⊢
      · rfl
      · exact readCompPolar_of_strict s conv h
      · exact readCompImag_of_strict s conv h
      · rfl

/-- **Strict mode only rejects more**: where `Kernel#Complex` accepts a string, `String#to_c` reads
the same complex from it. -/
theorem stringToC_of_stringToCStrict {v : N × N} (h : stringToCStrict conv s = .ok v) :
    stringToC conv s = v := by
  unfold stringToCStrict at h
  split_ifs at h with h0 hp
  cases h
  -- the strict parse succeeded, so `read_comp` did
  have hok : (readComp s conv true (skipWs s 0)).1 = true := by
    unfold parseComp at hp
    dsimp only at hp
    split_ifs at hp with h1
    simpa using h1
  unfold stringToC parseComp
  dsimp only
  rw [readComp_of_strict s conv hok]
  simp only [hok, Bool.not_true, Bool.false_eq_true, if_false, Bool.true_and]
  split_ifs <;> rfl

end Strict

end CRuby.Num
