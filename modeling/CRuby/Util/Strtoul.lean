import CRuby.Util.Digits
import Mathlib.Data.Nat.Find

/-!
# `ruby_strtoul` (util.c)

`ruby_strtoul(str, &endptr, base)` is Ruby's own `strtoul`: it skips the leading white space,
takes a sign, a `0x` or `0X` prefix for the bases 0 and 16 and a leading `0` (octal for base 0),
reads the digits after them with `ruby_scan_digits`, and keeps in `subject_found` where the
subject sequence ends.

`strtoulSpec` states what C's `strtoul` returns (C11 7.22.1.4), on its own terms: the longest
initial subsequence of the expected form after the sign (`isSubject`, chosen with
`Nat.findGreatest`), its value negated modulo `2 ^ 64` for a `-`, and `ULONG_MAX` with `ERANGE`
where the value does not fit. `rubyStrtoul_eq_strtoulSpec` proves that `ruby_strtoul` computes
it for every string and every base.

A string is a list of bytes whose terminating NUL is read past its end, as for
`ruby_scan_digits`; `unsigned long` has 64 bits.
-/

namespace CRuby.Util

/-- What `ruby_strtoul` stores in `errno`. -/
inductive Errno where
  | einval
  | erange
  deriving DecidableEq, Repr

/-- `rb_isspace(c)`: a space, or `'\t'` to `'\r'`. -/
def rbIsspace (c : UInt8) : Bool := c == ' '.toUInt8 || ('\t'.toUInt8 ≤ c && c ≤ '\r'.toUInt8)

/-- The prefix step of `ruby_strtoul` at the start `i` of the subject: `subject_found` (past a
leading `0`, else the start of the string), the radix `b`, and where `ruby_scan_digits` starts. -/
def strtoulPrefix (str : List UInt8) (base i : ℕ) : ℕ × ℕ × ℕ :=
  if str.getD i 0 = '0'.toUInt8 then
    if base = 0 ∨ base = 16 then
      if str.getD (i + 1) 0 = 'x'.toUInt8 ∨ str.getD (i + 1) 0 = 'X'.toUInt8 then (i + 1, 16, i + 2)
      else (i + 1, if base = 0 then 8 else 16, i + 1)
    else (i + 1, base, i + 1)
  else (0, if base = 0 then 10 else base, i)

/-- `ruby_strtoul(str, &endptr, base)`: the value, `*endptr - str` (`none` where it is not
written), and what is stored in `errno`. -/
def rubyStrtoul (str : List UInt8) (base : ℕ) : ℕ × Option ℕ × Option Errno :=
  if base = 1 ∨ 36 < base then (0, none, some .einval)
  else
    -- `while ((c = *str) && ISSPACE(c)) str++;`
    let i := (str.takeWhile rbIsspace).length
    let c := str.getD i 0
    let sign : ℤ := if c = '+'.toUInt8 then 1 else if c = '-'.toUInt8 then -1 else 0
    let i := if c = '+'.toUInt8 ∨ c = '-'.toUInt8 then i + 1 else i
    let pre := strtoulPrefix str base i
    let scan := rubyScanDigits (str.drop pre.2.2) (-1) pre.2.1
    -- `if (0 < len) subject_found = str+len;`
    let found := if 0 < scan.2.1 then pre.2.2 + scan.2.1 else pre.1
    if scan.2.2 then (2 ^ 64 - 1, some found, some .erange)
    -- `(unsigned long)(-(long)ret)`
    else if sign < 0 then ((2 ^ 64 - scan.1) % 2 ^ 64, some found, none)
    else (scan.1, some found, none)

/-! ## What C's `strtoul` returns -/

/-- Every byte of `t` is a digit of the radix `b`. -/
def allDigits (b : ℕ) (t : List UInt8) : Bool := t.all (isDigitOf b)

/-- `x` and then a nonempty run of hexadecimal digits, `x` being `x` or `X`. -/
def isHexTail : List UInt8 → Bool
  | x :: v => (x == 'x'.toUInt8 || x == 'X'.toUInt8) && !v.isEmpty && allDigits 16 v
  | [] => false

/-- The subject sequences `strtoul` expects after the sign: for base 0 an integer constant
(hexadecimal digits after `0x` or `0X`, octal digits after `0`, or decimal digits from a nonzero
one), for base 16 hexadecimal digits after an optional `0x` or `0X`, and for any other base a
nonempty run of its digits. -/
def isSubject (base : ℕ) : List UInt8 → Bool
  | [] => false
  | c :: u =>
    (base == 0 || base == 16) && c == '0'.toUInt8 && isHexTail u ||
    base == 0 && c == '0'.toUInt8 && allDigits 8 u ||
    base == 0 && c != '0'.toUInt8 && allDigits 10 (c :: u) ||
    base != 0 && allDigits base (c :: u)

/-- The radix of a subject without a `0x` prefix that starts with `c`. -/
def subjectRadix (base : ℕ) (c : UInt8) : ℕ :=
  if base = 0 then (if c = '0'.toUInt8 then 8 else 10) else base

/-- The value of a subject sequence: its digits after a `0x` or `0X` prefix in radix 16, all of
them in the radix of its first byte otherwise. -/
def subjectValue (base : ℕ) : List UInt8 → ℕ
  | [] => 0
  | [c] => digitsValue (subjectRadix base c) [c]
  | c :: x :: v =>
    if (base = 0 ∨ base = 16) ∧ c = '0'.toUInt8 ∧ (x = 'x'.toUInt8 ∨ x = 'X'.toUInt8) then
      digitsValue 16 v
    else digitsValue (subjectRadix base c) (c :: x :: v)

/-- **C's `strtoul`** on a string and a base, for a 64-bit `unsigned long`: after the white
space and an optional sign, the longest initial subsequence of the expected form is the
subject; without one nothing is read and `endptr` is the string itself. The value of the
subject is negated modulo `2 ^ 64` after a `-`, and is `ULONG_MAX` with `ERANGE` where it does
not fit. Outside the bases 0 and 2 to 36 it answers `EINVAL`. -/
def strtoulSpec (s : List UInt8) (base : ℕ) : ℕ × Option ℕ × Option Errno :=
  if base = 1 ∨ 36 < base then (0, none, some .einval)
  else
    let w := (s.takeWhile rbIsspace).length
    let c := s.getD w 0
    let p := if c = '+'.toUInt8 ∨ c = '-'.toUInt8 then w + 1 else w
    let rest := s.drop p
    let k := Nat.findGreatest (fun k => isSubject base (rest.take k) = true) rest.length
    if k = 0 then (0, some 0, none)
    else
      let v := subjectValue base (rest.take k)
      if 2 ^ 64 ≤ v then (2 ^ 64 - 1, some (p + k), some .erange)
      else (if c = '-'.toUInt8 then (2 ^ 64 - v) % 2 ^ 64 else v, some (p + k), none)

/-! ## Runs of digits -/

theorem take_length_takeWhile {α : Type} (q : α → Bool) :
    ∀ u : List α, u.take (u.takeWhile q).length = u.takeWhile q
  | [] => rfl
  | c :: u => by
    by_cases h : q c = true
    · simp only [List.takeWhile_cons, h, if_true, List.length_cons, List.take_succ_cons,
        take_length_takeWhile q u]
    · simp [h]

/-- A prefix of `u` is all digits exactly up to the length of the run of digits of `u`. -/
theorem allDigits_take_iff (b : ℕ) : ∀ (u : List UInt8) (j : ℕ), j ≤ u.length →
    (allDigits b (u.take j) = true ↔ j ≤ (u.takeWhile (isDigitOf b)).length)
  | [], j, hj => by
    rw [List.length_nil, Nat.le_zero] at hj
    subst hj
    simp [allDigits]
  | c :: u, 0, _ => by simp [allDigits]
  | c :: u, j + 1, hj => by
    have ih := allDigits_take_iff b u j (by rw [List.length_cons] at hj; omega)
    by_cases hc : isDigitOf b c = true
    · simp only [allDigits, List.take_succ_cons, List.all_cons, hc, Bool.true_and,
        List.takeWhile_cons, if_true, List.length_cons] at ih ⊢
      rw [ih]
      omega
    · simp [allDigits, hc]

theorem isDigitOf_zero {b : ℕ} (hb : 1 ≤ b) : isDigitOf b '0'.toUInt8 = true := by
  rw [isDigitOf, show rubyDigit36ToNumberTable '0'.toUInt8 = some 0 by decide, decide_eq_true_eq]
  omega

/-- A leading `0` adds nothing to a value. -/
theorem digitsValue_zero_cons (b : ℕ) (t : List UInt8) :
    digitsValue b ('0'.toUInt8 :: t) = digitsValue b t := by
  have h0 : digitStep b 0 '0'.toUInt8 = 0 := by
    rw [digitStep, show rubyDigit36ToNumberTable '0'.toUInt8 = some 0 by decide]
    simp
  rw [digitsValue, List.foldl_cons, h0]
  rfl

theorem length_takeWhile_le {α : Type} (q : α → Bool) (u : List α) :
    (u.takeWhile q).length ≤ u.length :=
  (List.takeWhile_prefix q).length_le

/-! ## The longest subject -/

/-- Without a leading `0`, a subject is a run of digits of the radix. -/
theorem isSubject_cons_of_ne {base : ℕ} {c : UInt8} (hc : c ≠ '0'.toUInt8) (t : List UInt8) :
    isSubject base (c :: t) = allDigits (if base = 0 then 10 else base) (c :: t) := by
  have hc' : (c == '0'.toUInt8) = false := beq_eq_false_iff_ne.mpr hc
  by_cases h0 : base = 0
  · simp [isSubject, h0, hc', hc]
  · have h0' : (base == 0) = false := beq_eq_false_iff_ne.mpr h0
    simp [isSubject, h0, h0', hc']

/-- After `0x` or `0X`, a subject is the prefix and a nonempty run of hexadecimal digits. -/
theorem isSubject_hex {base : ℕ} (hbase : base = 0 ∨ base = 16) {x : UInt8}
    (hx : x = 'x'.toUInt8 ∨ x = 'X'.toUInt8) (w : List UInt8) :
    isSubject base ('0'.toUInt8 :: x :: w) = (!w.isEmpty && allDigits 16 w) := by
  -- `x` is a digit of neither radix 8 nor 16
  have hx8 : isDigitOf 8 x = false ∧ isDigitOf 16 x = false := by
    rcases hx with rfl | rfl <;> decide
  have hxx : (x == 'x'.toUInt8 || x == 'X'.toUInt8) = true := by
    rcases hx with rfl | rfl <;> decide
  rcases hbase with rfl | rfl <;>
    simp [isSubject, isHexTail, allDigits, hx8, hxx]

/-- After a `0` and no `x`, a subject is the `0` and a run of digits of the radix. -/
theorem isSubject_zero {base : ℕ} (hb : base ≠ 1) {w : List UInt8}
    (hnx : (base = 0 ∨ base = 16) → isHexTail w = false) :
    isSubject base ('0'.toUInt8 :: w) = allDigits (if base = 0 then 8 else base) w := by
  by_cases h0 : base = 0
  · simp [isSubject, h0, hnx (.inl h0)]
  · have h0' : isDigitOf base '0'.toUInt8 = true := isDigitOf_zero (by omega)
    by_cases h16 : base = 16
    · subst h16
      simp [isSubject, hnx (.inr rfl), allDigits, h0']
    · have h0b : (base == 0) = false := beq_eq_false_iff_ne.mpr h0
      have h16b : (base == 16) = false := beq_eq_false_iff_ne.mpr h16
      simp [isSubject, h0, h0b, h16b, allDigits, h0']

/-- **The longest subject of a string without a leading `0`** is its run of digits of the
radix. -/
theorem findGreatest_isSubject_of_ne {base : ℕ} {c : UInt8} (hc : c ≠ '0'.toUInt8)
    (u : List UInt8) :
    Nat.findGreatest (fun k => isSubject base ((c :: u).take k) = true) (c :: u).length =
      ((c :: u).takeWhile (isDigitOf (if base = 0 then 10 else base))).length := by
  have hsub : ∀ j, 1 ≤ j → j ≤ (c :: u).length → (isSubject base ((c :: u).take j) = true ↔
      j ≤ ((c :: u).takeWhile (isDigitOf (if base = 0 then 10 else base))).length) := by
    intro j hj1 hjl
    obtain ⟨j, rfl⟩ : ∃ j', j = j' + 1 := ⟨j - 1, by omega⟩
    rw [List.take_succ_cons, isSubject_cons_of_ne hc, ← List.take_succ_cons]
    exact allDigits_take_iff _ _ _ hjl
  have hle := length_takeWhile_le (isDigitOf (if base = 0 then 10 else base)) (c :: u)
  rw [Nat.findGreatest_eq_iff]
  refine ⟨hle, fun hR => (hsub _ (by omega) hle).mpr le_rfl, fun j hRj hjl h => ?_⟩
  have := (hsub j (by omega) hjl).mp h
  omega

/-- **The longest subject after `0x` or `0X`** is the prefix and the run of hexadecimal digits
after it, or the lone `0` where there is none. -/
theorem findGreatest_isSubject_hex {base : ℕ} (hbase : base = 0 ∨ base = 16) {x : UInt8}
    (hx : x = 'x'.toUInt8 ∨ x = 'X'.toUInt8) (v : List UInt8) :
    Nat.findGreatest (fun k => isSubject base (('0'.toUInt8 :: x :: v).take k) = true)
        ('0'.toUInt8 :: x :: v).length =
      if (v.takeWhile (isDigitOf 16)).length = 0 then 1
      else (v.takeWhile (isDigitOf 16)).length + 2 := by
  have hle := length_takeWhile_le (isDigitOf 16) v
  -- `0` alone is a subject: octal for base 0, a hexadecimal digit for base 16
  have h1 : isSubject base ['0'.toUInt8] = true := by
    rcases hbase with rfl | rfl <;> decide
  have hsub : ∀ j, j ≤ v.length → (isSubject base (('0'.toUInt8 :: x :: v).take (j + 2)) = true ↔
      1 ≤ j ∧ j ≤ (v.takeWhile (isDigitOf 16)).length) := by
    intro j hj
    rw [List.take_succ_cons, List.take_succ_cons, isSubject_hex hbase hx, Bool.and_eq_true,
      allDigits_take_iff 16 v j hj]
    rcases Nat.eq_zero_or_pos j with rfl | hj0
    · simp
    · have hne : (v.take j).isEmpty = false := by
        rw [List.isEmpty_eq_false_iff, ne_eq, List.take_eq_nil_iff, not_or]
        exact ⟨by omega, List.ne_nil_of_length_pos (by omega)⟩
      simp only [hne, Bool.not_false, true_and]
      exact ⟨fun h => ⟨hj0, h⟩, fun h => h.2⟩
  rw [Nat.findGreatest_eq_iff, List.length_cons, List.length_cons]
  split_ifs with hR
  · refine ⟨by omega, fun _ => h1, fun j hj hjl h => ?_⟩
    obtain ⟨j, rfl⟩ : ∃ j', j = j' + 2 := by
      -- the take of two bytes, `0x`, is not a subject
      rcases Nat.lt_or_ge j 2 with hj2 | hj2
      · obtain rfl : j = 1 + 1 := by omega
        exact absurd h (by rw [show 1 + 1 = 0 + 2 by rfl, (hsub 0 (Nat.zero_le _))]; omega)
      · exact ⟨j - 2, by omega⟩
    have := (hsub j (by omega)).mp h
    omega
  · refine ⟨by omega, fun _ => (hsub _ hle).mpr ⟨by omega, le_rfl⟩, fun j hj hjl h => ?_⟩
    obtain ⟨j, rfl⟩ : ∃ j', j = j' + 2 := ⟨j - 2, by omega⟩
    have := (hsub j (by omega)).mp h
    omega

/-- **The longest subject after a `0` without `x`** is the `0` and the run of digits of the
radix after it. -/
theorem findGreatest_isSubject_zero {base : ℕ} (hb : base ≠ 1) (u : List UInt8)
    (hnx : (base = 0 ∨ base = 16) → u.getD 0 0 ≠ 'x'.toUInt8 ∧ u.getD 0 0 ≠ 'X'.toUInt8) :
    Nat.findGreatest (fun k => isSubject base (('0'.toUInt8 :: u).take k) = true)
        ('0'.toUInt8 :: u).length =
      (u.takeWhile (isDigitOf (if base = 0 then 8 else base))).length + 1 := by
  have hle := length_takeWhile_le (isDigitOf (if base = 0 then 8 else base)) u
  have hsub : ∀ j, j ≤ u.length → (isSubject base (('0'.toUInt8 :: u).take (j + 1)) = true ↔
      j ≤ (u.takeWhile (isDigitOf (if base = 0 then 8 else base))).length) := by
    intro j hj
    rw [List.take_succ_cons, isSubject_zero hb]
    · exact allDigits_take_iff _ u j hj
    · -- no `x` follows the `0`
      intro hbase
      obtain ⟨hx1, hx2⟩ := hnx hbase
      cases u with
      | nil => simp [isHexTail]
      | cons y u =>
        cases j with
        | zero => rfl
        | succ j =>
          simp only [List.getD_cons_zero] at hx1 hx2
          simp [List.take_succ_cons, isHexTail, hx1, hx2]
  rw [Nat.findGreatest_eq_iff, List.length_cons]
  refine ⟨by omega, fun _ => (hsub _ hle).mpr le_rfl, fun j hj hjl h => ?_⟩
  obtain ⟨j, rfl⟩ : ∃ j', j = j' + 1 := ⟨j - 1, by omega⟩
  have := (hsub j (by omega)).mp h
  omega

/-! ## The value of the subject -/

theorem subjectValue_of_ne {base : ℕ} {c : UInt8} (hc : c ≠ '0'.toUInt8) (t : List UInt8) :
    subjectValue base (c :: t) = digitsValue (if base = 0 then 10 else base) (c :: t) := by
  have hr : subjectRadix base c = if base = 0 then 10 else base := by
    simp [subjectRadix, hc]
  cases t with
  | nil => rw [subjectValue, hr]
  | cons x v => rw [subjectValue, if_neg (fun h => hc h.2.1), hr]

/-- After a `0` and no `x`, the value is that of the digits after the `0`. -/
theorem subjectValue_zero {base : ℕ} {t : List UInt8}
    (hnx : (base = 0 ∨ base = 16) → t.getD 0 0 ≠ 'x'.toUInt8 ∧ t.getD 0 0 ≠ 'X'.toUInt8) :
    subjectValue base ('0'.toUInt8 :: t) = digitsValue (if base = 0 then 8 else base) t := by
  have hr : subjectRadix base '0'.toUInt8 = if base = 0 then 8 else base := by
    simp [subjectRadix]
  cases t with
  | nil => rw [subjectValue, hr, digitsValue_zero_cons]
  | cons x v =>
    rw [subjectValue, if_neg, hr, digitsValue_zero_cons]
    rintro ⟨hbase, -, hx⟩
    obtain ⟨h1, h2⟩ := hnx hbase
    rcases hx with hx | hx
    · exact h1 hx
    · exact h2 hx

/-! ## The prefix step -/

theorem strtoulPrefix_of_ne {str : List UInt8} {base i : ℕ} (h : str.getD i 0 ≠ '0'.toUInt8) :
    strtoulPrefix str base i = (0, if base = 0 then 10 else base, i) := by
  rw [strtoulPrefix, if_neg h]

theorem strtoulPrefix_hex {str : List UInt8} {base i : ℕ} (h0 : str.getD i 0 = '0'.toUInt8)
    (hbase : base = 0 ∨ base = 16)
    (hx : str.getD (i + 1) 0 = 'x'.toUInt8 ∨ str.getD (i + 1) 0 = 'X'.toUInt8) :
    strtoulPrefix str base i = (i + 1, 16, i + 2) := by
  rw [strtoulPrefix, if_pos h0, if_pos hbase, if_pos hx]

/-- After a `0` without `x`, the radix is 8 for base 0 and the base otherwise. -/
theorem strtoulPrefix_zero {str : List UInt8} {base i : ℕ} (h0 : str.getD i 0 = '0'.toUInt8)
    (hnx : (base = 0 ∨ base = 16) →
      str.getD (i + 1) 0 ≠ 'x'.toUInt8 ∧ str.getD (i + 1) 0 ≠ 'X'.toUInt8) :
    strtoulPrefix str base i = (i + 1, if base = 0 then 8 else base, i + 1) := by
  rw [strtoulPrefix, if_pos h0]
  by_cases hbase : base = 0 ∨ base = 16
  · obtain ⟨h1, h2⟩ := hnx hbase
    rw [if_pos hbase, if_neg (fun h => h.elim h1 h2)]
    rcases hbase with rfl | rfl <;> rfl
  · rw [if_neg hbase, if_neg (fun h => hbase (.inl h))]

/-- The value of the lone `0`. -/
theorem subjectValue_zero_single (base : ℕ) : subjectValue base ['0'.toUInt8] = 0 := by
  rw [subjectValue, digitsValue_zero_cons]
  rfl

/-- The length of a run is zero only for the empty run. -/
theorem takeWhile_eq_nil_of_length {α : Type} {q : α → Bool} {u : List α}
    (h : (u.takeWhile q).length = 0) : u.takeWhile q = [] :=
  List.length_eq_zero_iff.mp h

/-- **After the sign**, at `p`: `ruby_strtoul` ends its subject where the longest subject of the
rest of the string ends (at the string itself where there is none), and the digits it scans have
the value of that subject. -/
theorem strtoulPrefix_spec (base : ℕ) (hb : base ≠ 1) (s : List UInt8) (p : ℕ) :
    let pre := strtoulPrefix s base p
    let scan := rubyScanDigits (s.drop pre.2.2) (-1) pre.2.1
    let k := Nat.findGreatest (fun k => isSubject base ((s.drop p).take k) = true)
      (s.drop p).length
    (if 0 < scan.2.1 then pre.2.2 + scan.2.1 else pre.1) = (if k = 0 then 0 else p + k) ∧
      ScanInv scan.1 (subjectValue base ((s.drop p).take k)) scan.2.2 := by
  have hget : ∀ j, s.getD (p + j) 0 = (s.drop p).getD j 0 := by
    intro j
    simp [List.getD_eq_getElem?_getD, List.getElem?_drop]
  have hdrop : ∀ j, s.drop (p + j) = (s.drop p).drop j := fun j => List.drop_drop.symm
  have hget0 : s.getD p 0 = (s.drop p).getD 0 0 := hget 0
  dsimp only
  generalize hrest : s.drop p = rest at hget hdrop hget0 ⊢
  rcases rest with _ | ⟨c, u⟩
  · -- nothing after the sign: no subject
    rw [strtoulPrefix_of_ne (by rw [hget0]; decide), hrest]
    exact ⟨rfl, .inl ⟨rfl, rfl, Nat.two_pow_pos 64⟩⟩
  by_cases hc : c = '0'.toUInt8
  · subst hc
    have h0 : s.getD p 0 = '0'.toUInt8 := hget0
    by_cases hx : (base = 0 ∨ base = 16) ∧
        (u.getD 0 0 = 'x'.toUInt8 ∨ u.getD 0 0 = 'X'.toUInt8)
    · -- `0x`: the hexadecimal digits after it
      obtain ⟨x, v, rfl⟩ : ∃ x v, u = x :: v := by
        cases u with
        | nil => exact absurd hx.2 (by decide)
        | cons x v => exact ⟨x, v, rfl⟩
      rw [List.getD_cons_zero] at hx
      have hx1 : s.getD (p + 1) 0 = x := hget 1
      rw [strtoulPrefix_hex h0 hx.1 (by rw [hx1]; exact hx.2), hdrop 2,
        findGreatest_isSubject_hex hx.1 hx.2]
      dsimp only
      obtain ⟨hlen, hinv⟩ := rubyScanDigits_spec v 16 (by decide)
      rw [show List.drop 2 ('0'.toUInt8 :: x :: v) = v from rfl, hlen]
      by_cases hR : (v.takeWhile (isDigitOf 16)).length = 0
      · -- `0x` and no digit: the subject is the `0`
        rw [if_pos hR, if_neg (by omega), if_neg (by omega), List.take_succ_cons, List.take_zero,
          subjectValue_zero_single]
        rw [takeWhile_eq_nil_of_length hR] at hinv
        exact ⟨rfl, hinv⟩
      · rw [if_neg hR, if_pos (by omega), if_neg (by omega), List.take_succ_cons,
          List.take_succ_cons, take_length_takeWhile, subjectValue, if_pos ⟨hx.1, rfl, hx.2⟩]
        exact ⟨by omega, hinv⟩
    · -- a `0` and the digits of the radix after it
      have hnx : (base = 0 ∨ base = 16) → u.getD 0 0 ≠ 'x'.toUInt8 ∧ u.getD 0 0 ≠ 'X'.toUInt8 :=
        fun hbase => ⟨fun h => hx ⟨hbase, .inl h⟩, fun h => hx ⟨hbase, .inr h⟩⟩
      have hx1 : s.getD (p + 1) 0 = u.getD 0 0 := hget 1
      rw [strtoulPrefix_zero h0 (by rw [hx1]; exact hnx), hdrop 1,
        findGreatest_isSubject_zero hb u hnx]
      dsimp only
      obtain ⟨hlen, hinv⟩ := rubyScanDigits_spec u (if base = 0 then 8 else base)
        (by split_ifs <;> omega)
      rw [show List.drop 1 ('0'.toUInt8 :: u) = u from rfl, hlen, if_neg (Nat.succ_ne_zero _)]
      refine ⟨?_, ?_⟩
      · by_cases hR : 0 < (u.takeWhile (isDigitOf (if base = 0 then 8 else base))).length
        · rw [if_pos hR]
          omega
        · rw [if_neg hR]
          omega
      rw [List.take_succ_cons, take_length_takeWhile, subjectValue_zero]
      · exact hinv
      · -- the run starts with the byte after the `0`
        intro hbase
        obtain ⟨h1, h2⟩ := hnx hbase
        cases u with
        | nil => exact ⟨by rw [List.takeWhile_nil, List.getD_nil]; decide,
            by rw [List.takeWhile_nil, List.getD_nil]; decide⟩
        | cons y u =>
          simp only [List.getD_cons_zero] at h1 h2
          by_cases hy : isDigitOf (if base = 0 then 8 else base) y = true
          · simp [hy, h1, h2]
          · simp only [List.takeWhile_cons, hy, Bool.false_eq_true, if_false, List.getD_nil]
            exact ⟨by decide, by decide⟩
  · -- no leading `0`: the digits of the radix
    rw [strtoulPrefix_of_ne (by rw [hget0]; exact hc), hrest, findGreatest_isSubject_of_ne hc]
    dsimp only
    obtain ⟨hlen, hinv⟩ := rubyScanDigits_spec (c :: u) (if base = 0 then 10 else base)
      (by split_ifs <;> omega)
    rw [hlen]
    refine ⟨by split_ifs <;> omega, ?_⟩
    rw [take_length_takeWhile]
    by_cases hcd : isDigitOf (if base = 0 then 10 else base) c = true
    · rw [List.takeWhile_cons, if_pos hcd, subjectValue_of_ne hc] at *
      exact hinv
    · rw [List.takeWhile_cons, if_neg hcd] at *
      exact hinv

/-! ## `ruby_strtoul` is `strtoul` -/

/-- The `sign` of `ruby_strtoul` is negative exactly after a `-`. -/
theorem strtoul_sign_neg (c : UInt8) :
    ((if c = '+'.toUInt8 then 1 else if c = '-'.toUInt8 then -1 else 0 : ℤ) < 0) ↔
      c = '-'.toUInt8 := by
  by_cases hp : c = '+'.toUInt8
  · subst hp
    decide
  · by_cases hm : c = '-'.toUInt8
    · subst hm
      decide
    · simp [hp, hm]

/-- **`ruby_strtoul` is C's `strtoul`**: for every string and every base it returns the value,
sets `endptr` and `errno` as `strtoulSpec` says. -/
theorem rubyStrtoul_eq_strtoulSpec (s : List UInt8) (base : ℕ) :
    rubyStrtoul s base = strtoulSpec s base := by
  unfold rubyStrtoul strtoulSpec
  by_cases hbase : base = 1 ∨ 36 < base
  · rw [if_pos hbase, if_pos hbase]
  rw [if_neg hbase, if_neg hbase]
  dsimp only
  -- the white space and the sign are read alike; the subject may start at `p`
  generalize (s.takeWhile rbIsspace).length = w
  generalize s.getD w 0 = c
  generalize hp : (if c = '+'.toUInt8 ∨ c = '-'.toUInt8 then w + 1 else w) = p
  obtain ⟨hend, hinv⟩ := strtoulPrefix_spec base (fun h => hbase (.inl h)) s p
  rw [hend]
  generalize Nat.findGreatest (fun k => isSubject base ((s.drop p).take k) = true)
    (s.drop p).length = k at hinv ⊢
  generalize rubyScanDigits (s.drop (strtoulPrefix s base p).2.2) (-1)
    (strtoulPrefix s base p).2.1 = scan at hinv ⊢
  obtain ⟨ret, len, ov⟩ := scan
  dsimp only at hinv ⊢
  simp only [strtoul_sign_neg]
  by_cases hk : k = 0
  · -- no subject: nothing is read
    subst hk
    rw [List.take_zero, show subjectValue base [] = 0 from rfl] at hinv
    rcases hinv with ⟨rfl, rfl, -⟩ | ⟨-, h⟩
    · simp
    · exact absurd h (by decide)
  · rw [if_neg hk, if_neg hk]
    rcases hinv with ⟨rfl, rfl, hfit⟩ | ⟨rfl, hbig⟩
    · rw [if_neg (not_le.mpr hfit)]
      by_cases hm : c = '-'.toUInt8 <;> simp [hm]
    · rw [if_pos hbig]
      rfl

/-- `" -0x"` in base 0: the subject is the `0`, and `endptr` is past it. -/
example : rubyStrtoul ([' ', '-', '0', 'x'].map Char.toUInt8) 0 = (0, some 3, none) := by decide

/-- `ULONG_MAX + 1` in base 10. -/
example : rubyStrtoul ("18446744073709551616".toList.map Char.toUInt8) 10 =
    (2 ^ 64 - 1, some 20, some .erange) := by decide

end CRuby.Util
