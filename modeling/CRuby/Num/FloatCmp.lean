import CRuby.Num.Fixnum
import CRuby.Lib.Binary64

/-!
# Comparing an `Integer` with a `Float` (bignum.c)

`rb_integer_float_cmp` and `rb_integer_float_eq` on LP64. A `long` has more bits than the
significand of a double there, so a Fixnum is not converted to a double: the double `y` is split
by `modf` into an integral part `yi` and a fraction `yf`, `yi` is checked against the Fixnum (or
`long`) range, converted to `long` and compared, and `yf` breaks a tie. A Bignum is compared with
`rb_dbl2big(yi)`, the Integer that `dbl2big` builds digit by digit with double arithmetic.

Doubles are their values (`Binary64`); each double operation of the code is the rounding of its
exact result. A conversion of a double to an integer type whose range does not hold its integral
part is undefined in C (C11 6.3.1.4), and returns `Undefined` here.

* `rbDbl2big` ends on every finite double, and `dbl2big`'s divisions, products and differences are
  all exact, so it returns the integral part (`rbDbl2big_eq`);
* on a Fixnum, `rbIntegerFloatCmp` is the sign of `x - y` (`rbIntegerFloatCmp_fixnum`), and so it
  is on a Bignum, through the exact `rbDbl2big` and `rb_big_cmp` (`rbIntegerFloatCmp_bignum`):
  the comparison is exact on every Integer and every double
  (`rbIntegerFloatCmp_eq_integerFloatCmp`);
* `rbIntegerFloatEq` tests `LONG_MAX < yi` in double arithmetic, where `LONG_MAX` becomes `2 ^ 63`,
  so `yi = 2 ^ 63` passes the range test and reaches `(long)yi` out of range
  (`integer_float_eq_long_overflow`); at every other double it is exact
  (`rbIntegerFloatEq_eq_integerFloatEq`).
-/

namespace CRuby.Num

/-- A `double`, as the code tells them apart: NaN, an infinity of either sign, or a finite
value. -/
inductive Double where
  | nan
  | inf (neg : Bool)
  | finite (x : ℚ)
  deriving DecidableEq, Repr

/-- Where the modelled C code has undefined behaviour. -/
inductive Undefined where
  /-- a double converted to an integer type that cannot hold its integral part -/
  | dblToInt (d : ℚ)
  deriving DecidableEq, Repr

/-- `modf(d, &i)`: the fraction and the integral part, towards zero. Both are doubles, so the
results are exact. -/
def modf (d : ℚ) : ℚ × ℚ := (d - Binary64.truncate d, Binary64.truncate d)

/-- A C conversion of a double to an integer type holding `[lo, hi]`. -/
def dblToInt (lo hi : ℤ) (d : ℚ) : Except Undefined ℤ :=
  if lo ≤ Binary64.truncate d ∧ Binary64.truncate d ≤ hi then .ok (Binary64.truncate d)
  else .error (.dblToInt d)

/-- `(long)d`. -/
def dblToLong (d : ℚ) : Except Undefined ℤ := dblToInt longMin longMax d

/-- `(BDIGIT)d`. -/
def dblToBdigit (d : ℚ) : Except Undefined ℤ := dblToInt 0 (2 ^ 32 - 1) d

/-! ## `dbl2big` -/

/-- `BIGRAD`, `2 ^ BITSPERDIG`, as a double. -/
def bigrad : ℚ := 2 ^ 32

/-- One division by `BIGRAD` takes at least the integer part down (it at most doubles the exact
quotient), which is what makes the first loop of `dbl2big` end. -/
theorem floor_round_div_bigrad_lt {u : ℚ} (h : 1 ≤ u) :
    ⌊Binary64.round (u / bigrad)⌋₊ < ⌊u⌋₊ := by
  have hpos : 0 < u / bigrad := div_pos (by linarith) (by norm_num [bigrad])
  have hle : Binary64.round (u / bigrad) ≤ u / ((2 ^ 31 : ℕ) : ℚ) := by
    refine (Binary64.round_le_two_mul hpos).trans (le_of_eq ?_)
    rw [bigrad]
    push_cast
    ring
  have h1 : 1 ≤ ⌊u⌋₊ := Nat.le_floor (by exact_mod_cast h)
  calc ⌊Binary64.round (u / bigrad)⌋₊ ≤ ⌊u / ((2 ^ 31 : ℕ) : ℚ)⌋₊ := Nat.floor_le_floor hle
    _ = ⌊u⌋₊ / 2 ^ 31 := Nat.floor_div_natCast u _
    _ < ⌊u⌋₊ := Nat.div_lt_self h1 (by norm_num)

/-- The first loop of `dbl2big`: `while (1.0 <= u) { u /= (double)(BIGRAD); i++; }`. -/
def dbl2bigScale (u : ℚ) (i : ℕ) : ℚ × ℕ :=
  if h : 1 ≤ u then dbl2bigScale (Binary64.round (u / bigrad)) (i + 1) else (u, i)
termination_by ⌊u⌋₊
decreasing_by exact floor_round_div_bigrad_lt h

/-- The second loop of `dbl2big`,
`while (i--) { u *= BIGRAD; c = (BDIGIT)u; u -= c; digits[i] = c; }`, from the top digit down;
`acc` is the value of the digits written so far. -/
def dbl2bigDigits : ℕ → ℚ → ℤ → Except Undefined ℤ
  | 0, _, acc => .ok acc
  | i + 1, u, acc => do
    let u := Binary64.round (u * bigrad)
    let c ← dblToBdigit u
    dbl2bigDigits i (Binary64.round (u - c)) (acc * 2 ^ 32 + c)

/-- `rb_dbl2big(d)` for a finite `d`: `bignorm` of the Bignum `dbl2big` builds with
`bignew(i, d>=0)` from the digits of `u = (d < 0) ? -d : d`. (`dbl2big` raises
`FloatDomainError` on an infinity or NaN, which its callers here never pass.) -/
def rbDbl2big (d : ℚ) : Except Undefined RInteger := do
  let (u, i) := dbl2bigScale |d| 0
  let v ← dbl2bigDigits i u 0
  return bignorm (.bignum (if 0 ≤ d then v else -v))

/-! ## `rb_big_cmp`, `rb_big_eq` -/

/-- `rb_big_cmp(x, y)` for a Bignum `x` and an Integer `y`, as `INT2FIX` of the result: a Fixnum
`y` meets `bigfixize(x)` as a word, or else the sign of `x`; a Bignum `y` of the same sign is
compared by magnitude (`bary_cmp`), one of the other sign by the sign of `x`. -/
def rbBigCmp (x : ℤ) (y : RInteger) : ℤ :=
  match y, bignorm (.bignum x) with
  | .fixnum v, .fixnum u => if u.toInt < v.toInt then -1 else if v.toInt < u.toInt then 1 else 0
  | .fixnum _, .bignum _ => if 0 ≤ x then 1 else -1
  | .bignum n, _ =>
    if (0 ≤ x) = (0 ≤ n) then
      let cmp : ℤ := if x.natAbs < n.natAbs then -1 else if n.natAbs < x.natAbs then 1 else 0
      if 0 ≤ x then cmp else -cmp
    else if 0 ≤ x then 1 else -1

/-- `rb_big_eq(x, y)` for a Bignum `x` and an Integer `y`: `bignorm(x) == y` for a Fixnum, sign,
length and digits for a Bignum. -/
def rbBigEq (x : ℤ) (y : RInteger) : Bool :=
  match y with
  | .fixnum v => bignorm (.bignum x) == .fixnum v
  | .bignum n => x == n

/-! ## `rb_integer_float_cmp`, `rb_integer_float_eq` -/

/-- `rb_integer_float_cmp(x, y)` on LP64 (`SIZEOF_LONG * CHAR_BIT ≥ DBL_MANT_DIG`): `none` is
`Qnil` and `some r` is `INT2FIX(r)`. The `long` constants `FIXNUM_MIN` and `FIXNUM_MAX+1` are
converted to double where they meet `yi`. -/
def rbIntegerFloatCmp (x : RInteger) (y : Double) : Except Undefined (Option ℤ) :=
  match y with
  | .nan => .ok none
  | .inf neg => .ok (some (if neg then 1 else -1))
  | .finite yd =>
    let (yf, yi) := modf yd
    match x with
    | .fixnum v =>
      if yi < Binary64.round fixnumMin then .ok (some 1)
      else if Binary64.round (fixnumMax + 1) ≤ yi then .ok (some (-1))
      else do
        let xn := (fix2long v).toInt
        let yn ← dblToLong yi
        if xn < yn then return some (-1)
        if xn > yn then return some 1
        if yf < 0 then return some 1
        if 0 < yf then return some (-1)
        return some 0
    | .bignum n => do
      let rel := rbBigCmp n (← rbDbl2big yi)
      if yf = 0 ∨ rel ≠ 0 then return some rel
      if yf < 0 then return some 1
      return some (-1)

/-- `rb_integer_float_eq(x, y)` on LP64. `LONG_MIN` and `LONG_MAX` are converted to double where
they meet `yi`. -/
def rbIntegerFloatEq (x : RInteger) (y : Double) : Except Undefined Bool :=
  match y with
  | .nan | .inf _ => .ok false
  | .finite yd =>
    let (yf, yi) := modf yd
    if yf ≠ 0 then .ok false
    else
      match x with
      | .fixnum v =>
        if yi < Binary64.round longMin ∨ Binary64.round longMax < yi then .ok false
        else do
          let xn := (fix2long v).toInt
          let yn ← dblToLong yi
          return xn == yn
      | .bignum n => do
        return rbBigEq n (← rbDbl2big yi)

/-! ## The `long` bounds as doubles -/

/-- `(double)LONG_MAX` is `2 ^ 63`: `2 ^ 63 - 1` is one below the double `2 ^ 63`, whose ulp is
`2 ^ 11`. -/
theorem round_longMax : Binary64.round longMax = 2 ^ 63 := by
  have h1 : (2 : ℚ) ^ (-1022 : ℤ) ≤ 1 := zpow_le_one_of_nonpos₀ one_le_two (by norm_num)
  have h2 : (2 : ℚ) ^ (64 : ℤ) ≤ 2 ^ (1023 : ℤ) := zpow_le_zpow_right₀ one_le_two (by norm_num)
  refine Binary64.round_eq_of_near ⟨1, 63, by norm_num, by norm_num, by norm_num, by norm_num⟩
    (k := 62) ?_ ?_ ?_ ?_
  · norm_num [Binary64.ulp]
  · norm_num [Binary64.ulp, longMax]
  · exact h1.trans (by norm_num [longMax])
  · exact lt_of_lt_of_le (by norm_num [longMax]) h2

/-- A power of two, or its negation, converts to itself. -/
theorem round_signed_two_pow {m : ℤ} (hm : m = 1 ∨ m = -1) (n : ℕ) (hn : n ≤ 971) :
    Binary64.round (m * 2 ^ n) = m * 2 ^ n := by
  have habs : |(m : ℚ) * 2 ^ n| = 2 ^ (n : ℤ) := by
    rcases hm with rfl | rfl <;> simp
  refine Binary64.round_eq_self ⟨m, n, ?_, by omega, by omega, by simp⟩ ?_ ?_
  · rcases hm with rfl | rfl <;> norm_num
  · rw [habs]
    exact zpow_le_zpow_right₀ one_le_two (by omega)
  · rw [habs]
    exact zpow_lt_zpow_right₀ one_lt_two (by omega)

theorem round_longMin : Binary64.round longMin = -2 ^ 63 := by
  have h := round_signed_two_pow (.inr rfl) 63 (by norm_num)
  norm_num at h
  norm_num [longMin, h]

theorem round_fixnumMin : Binary64.round fixnumMin = -2 ^ 62 := by
  have h := round_signed_two_pow (.inr rfl) 62 (by norm_num)
  norm_num at h
  norm_num [fixnumMin_eq, h]

theorem round_fixnumMax_add_one : Binary64.round (fixnumMax + 1) = 2 ^ 62 := by
  have h := round_signed_two_pow (.inl rfl) 62 (by norm_num)
  norm_num at h
  norm_num [fixnumMax_eq, h]

/-! ## A Fixnum against a double -/

theorem sign_eq_one {r : ℚ} (h : 0 < r) : (SignType.sign r : ℤ) = 1 := by simp [sign_pos h]

theorem sign_eq_neg_one {r : ℚ} (h : r < 0) : (SignType.sign r : ℤ) = -1 := by simp [sign_neg h]

theorem sign_ne_zero {r : ℚ} (h : r ≠ 0) : (SignType.sign r : ℤ) ≠ 0 := by
  rcases h.lt_or_gt with h | h
  · rw [sign_eq_neg_one h]
    decide
  · rw [sign_eq_one h]
    decide

/-- The integral part of a value in the `long` range converts to `long`. -/
theorem dblToLong_of_le {d : ℚ} (h1 : longMin ≤ Binary64.truncate d)
    (h2 : Binary64.truncate d ≤ longMax) : dblToLong d = .ok (Binary64.truncate d) := by
  rw [dblToLong, dblToInt, if_pos ⟨h1, h2⟩]

/-- **On a Fixnum, `rb_integer_float_cmp` is the sign of `x - y`**, for every finite `y`: the range
tests only catch `yi` outside the Fixnums, where the sign is that of the test, and in range the
integral parts decide unless they are equal, when the fraction does. -/
theorem rbIntegerFloatCmp_fixnum (a : Fixnum) (yd : ℚ) :
    rbIntegerFloatCmp (.fixnum a.value) (.finite yd) =
      .ok (some (SignType.sign ((a.toInt : ℚ) - yd) : ℤ)) := by
  simp only [rbIntegerFloatCmp, modf, round_fixnumMin, round_fixnumMax_add_one]
  -- `FIX2LONG(x)` is the Fixnum's value
  change _ = Except.ok (some (SignType.sign (((fix2long a.value).toInt : ℚ) - yd) : ℤ))
  have hx := fixableP_iff.mp (fixableP_fix2long a.value)
  set x := (fix2long a.value).toInt
  have hx1 : (-2 ^ 62 : ℚ) ≤ x := by exact_mod_cast hx.1
  have hx2 : (x : ℚ) < 2 ^ 62 := by exact_mod_cast hx.2
  by_cases h1 : (Binary64.truncate yd : ℚ) < -2 ^ 62
  · -- below the Fixnums
    rw [if_pos h1]
    have h1' : Binary64.truncate yd < x := by
      exact_mod_cast (show (Binary64.truncate yd : ℚ) < x by linarith)
    rw [sign_eq_one (sub_pos.mpr (Binary64.lt_of_truncate_lt h1'))]
  rw [if_neg h1]
  by_cases h2 : (2 ^ 62 : ℚ) ≤ Binary64.truncate yd
  · -- above them
    rw [if_pos h2]
    have h2' : x < Binary64.truncate yd := by
      exact_mod_cast (show (x : ℚ) < Binary64.truncate yd by linarith)
    rw [sign_eq_neg_one (sub_neg.mpr (Binary64.lt_of_lt_truncate h2'))]
  rw [if_neg h2]
  have hlo : -2 ^ 62 ≤ Binary64.truncate yd := by exact_mod_cast not_lt.mp h1
  have hhi : Binary64.truncate yd < 2 ^ 62 := by exact_mod_cast not_le.mp h2
  rw [dblToLong_of_le (by rw [Binary64.truncate_intCast]; norm_num [longMin]; omega)
    (by rw [Binary64.truncate_intCast]; norm_num [longMax]; omega), Binary64.truncate_intCast]
  simp only [bind, Except.bind, pure, Except.pure]
  by_cases h3 : x < Binary64.truncate yd
  · rw [if_pos h3, sign_eq_neg_one (sub_neg.mpr (Binary64.lt_of_lt_truncate h3))]
  rw [if_neg h3]
  by_cases h4 : x > Binary64.truncate yd
  · rw [if_pos h4, sign_eq_one (sub_pos.mpr (Binary64.lt_of_truncate_lt h4))]
  rw [if_neg h4]
  -- equal integral parts: the fraction decides
  have hxt : (x : ℚ) = Binary64.truncate yd := by
    exact_mod_cast le_antisymm (not_lt.mp h4) (not_lt.mp h3)
  by_cases h5 : yd - Binary64.truncate yd < 0
  · simp only [h5, ↓reduceIte]
    rw [sign_eq_one (by linarith)]
  by_cases h6 : 0 < yd - Binary64.truncate yd
  · simp only [h5, h6, ↓reduceIte]
    rw [sign_eq_neg_one (by linarith)]
  simp only [h5, h6, ↓reduceIte]
  have : (x : ℚ) - yd = 0 := by linarith [le_antisymm (not_lt.mp h6) (not_lt.mp h5)]
  rw [this, sign_zero]
  rfl

/-! ## `dbl2big` is exact

Write `u0 = |d| = m * 2 ^ e` for a finite `d`, and `I` for the least number of divisions by
`BIGRAD` that take `u0` below 1. Every value the two loops meet is a multiple of a power of two
with fewer than 53 bits, so every rounding in them is exact: the first loop leaves
`u0 / BIGRAD ^ I`, and the second keeps the fraction of `u0 / BIGRAD ^ k` in `u` and its integer
part in the digits written, for `k` from `I` down to 0. -/

section Dbl2big

variable {u0 : ℚ} {e : ℤ}

theorem div_two_pow_eq_mul (x : ℚ) (k : ℕ) : x / 2 ^ (32 * k) = x * 2 ^ (-(32 * k : ℤ)) := by
  rw [zpow_neg, div_eq_mul_inv, ← zpow_natCast]
  push_cast
  rfl

/-- Below the top digit `u0 ≥ BIGRAD ^ k`, so the exponents the loops meet stay above `-53`. -/
theorem lt_of_two_pow_le (hlt : u0 < 2 ^ (e + 53)) {t : ℕ} (ht : 2 ^ (32 * t) ≤ u0) :
    (32 * t : ℤ) < e + 53 := by
  have h : (2 : ℚ) ^ ((32 * t : ℕ) : ℤ) < 2 ^ (e + 53) := by
    rw [zpow_natCast]
    exact ht.trans_lt hlt
  exact_mod_cast (zpow_lt_zpow_iff_right₀ one_lt_two).mp h

theorem isDyadic_scaled (hu : Binary64.IsDyadic e u0) (k : ℕ) :
    Binary64.IsDyadic (e - 32 * k) (u0 / 2 ^ (32 * k)) := by
  have h := hu.mul_two_zpow (-(32 * k : ℤ))
  rwa [← sub_eq_add_neg, ← div_two_pow_eq_mul] at h

theorem scaled_lt (hlt : u0 < 2 ^ (e + 53)) (k : ℕ) :
    u0 / 2 ^ (32 * k) < 2 ^ (e - 32 * k + 53) := by
  have hpos : (0 : ℚ) < 2 ^ (-(32 * k : ℤ)) := zpow_pos two_pos _
  calc u0 / 2 ^ (32 * k) = u0 * 2 ^ (-(32 * k : ℤ)) := div_two_pow_eq_mul u0 k
    _ < 2 ^ (e + 53) * 2 ^ (-(32 * k : ℤ)) := mul_lt_mul_of_pos_right hlt hpos
    _ = 2 ^ (e - 32 * k + 53) := by
        rw [← zpow_add₀ two_ne_zero]
        ring_nf

/-- **A division of the first loop is exact.** -/
theorem round_div_bigrad_eq (hu : Binary64.IsDyadic e u0) (h0 : 0 ≤ u0)
    (hlt : u0 < 2 ^ (e + 53)) (he : e ≤ 971) {t : ℕ} (ht : 2 ^ (32 * t) ≤ u0) :
    Binary64.round (u0 / 2 ^ (32 * t) / bigrad) = u0 / 2 ^ (32 * (t + 1)) := by
  have hq : u0 / 2 ^ (32 * t) / bigrad = u0 / 2 ^ (32 * (t + 1)) := by
    rw [bigrad, div_div, ← pow_add]
    ring_nf
  have h32 := lt_of_two_pow_le hlt ht
  have hpos : (0 : ℚ) ≤ u0 / 2 ^ (32 * (t + 1)) := by positivity
  have hlt' := scaled_lt hlt (t + 1)
  push_cast at hlt'
  rw [hq]
  refine Binary64.round_eq_of_isDyadic (s := e - 32 * (t + 1)) ?_ (by omega) (by omega) ?_ ?_
  · exact_mod_cast isDyadic_scaled hu (t + 1)
  · rwa [abs_of_nonneg hpos]
  · rw [abs_of_nonneg hpos]
    exact hlt'.trans_le (zpow_le_zpow_right₀ one_le_two (by omega))

/-- **The first loop ends after `I` divisions**, on `u0 / BIGRAD ^ I`. -/
theorem dbl2bigScale_eq (hu : Binary64.IsDyadic e u0) (h0 : 0 ≤ u0)
    (hlt : u0 < 2 ^ (e + 53)) (he : e ≤ 971) {I : ℕ} (hI1 : u0 < 2 ^ (32 * I))
    (hI2 : ∀ t < I, 2 ^ (32 * t) ≤ u0) (n t : ℕ) (hn : t + n = I) :
    dbl2bigScale (u0 / 2 ^ (32 * t)) t = (u0 / 2 ^ (32 * I), I) := by
  induction n generalizing t with
  | zero =>
    subst hn
    have h : ¬1 ≤ u0 / 2 ^ (32 * t) := by
      rw [not_le, div_lt_one (by positivity)]
      exact hI1
    rw [dbl2bigScale, dif_neg h]
    rfl
  | succ n ih =>
    have ht := hI2 t (by omega)
    have h : 1 ≤ u0 / 2 ^ (32 * t) := (one_le_div (by positivity)).mpr ht
    rw [dbl2bigScale, dif_pos h, round_div_bigrad_eq hu h0 hlt he ht]
    exact ih (t + 1) (by omega)

/-- **A turn of the second loop is exact**: from the fraction of `u0 / BIGRAD ^ (k + 1)` it writes
the digit `⌊u0 / BIGRAD ^ k⌋ - BIGRAD * ⌊u0 / BIGRAD ^ (k + 1)⌋` and keeps the fraction of
`u0 / BIGRAD ^ k`. -/
theorem dbl2bigDigits_succ (hu : Binary64.IsDyadic e u0) (h0 : 0 ≤ u0)
    (hlt : u0 < 2 ^ (e + 53)) {k : ℕ} (hk : 2 ^ (32 * k) ≤ u0) :
    dbl2bigDigits (k + 1) (u0 / 2 ^ (32 * (k + 1)) - ⌊u0 / 2 ^ (32 * (k + 1))⌋)
        ⌊u0 / 2 ^ (32 * (k + 1))⌋ =
      dbl2bigDigits k (u0 / 2 ^ (32 * k) - ⌊u0 / 2 ^ (32 * k)⌋) ⌊u0 / 2 ^ (32 * k)⌋ := by
  have hyy : u0 / 2 ^ (32 * (k + 1)) * bigrad = u0 / 2 ^ (32 * k) := by
    rw [bigrad, mul_add, mul_one, pow_add]
    field_simp
  have hy0 : 0 ≤ u0 / 2 ^ (32 * k) := div_nonneg h0 (pow_nonneg zero_le_two _)
  have hy'0 : 0 ≤ u0 / 2 ^ (32 * (k + 1)) := div_nonneg h0 (pow_nonneg zero_le_two _)
  set y := u0 / 2 ^ (32 * k)
  set y' := u0 / 2 ^ (32 * (k + 1))
  have hfl0 : (0 : ℚ) ≤ ⌊y'⌋ := by exact_mod_cast Int.floor_nonneg.mpr hy'0
  have hfr0 : 0 ≤ y' - ⌊y'⌋ := sub_nonneg.mpr (Int.floor_le y')
  have hfr1 : y' - ⌊y'⌋ < 1 := by linarith [Int.lt_floor_add_one y']
  -- the product: the fraction of `y'` moved up 32 bits, `v = y - 2 ^ 32 * ⌊y'⌋`
  have hv : (y' - ⌊y'⌋) * bigrad = y - (⌊y'⌋ * 2 ^ 32 : ℤ) := by
    rw [sub_mul, hyy, bigrad]
    push_cast
    ring
  set v := y - ((⌊y'⌋ * 2 ^ 32 : ℤ) : ℚ) with hvdef
  have hv0 : 0 ≤ v := by
    rw [← hv, bigrad]
    exact mul_nonneg hfr0 (by norm_num)
  have hv1 : v < 2 ^ 32 := by
    rw [← hv, bigrad]
    nlinarith
  have hvy : v ≤ y := by
    have : (0 : ℚ) ≤ ((⌊y'⌋ * 2 ^ 32 : ℤ) : ℚ) := by
      push_cast
      exact mul_nonneg hfl0 (by norm_num)
    linarith
  -- both values lie on the grid of `2 ^ min (e - 32 * k) 0`, with fewer than 53 bits
  have hk' := lt_of_two_pow_le hlt hk
  have hs1 : -1022 ≤ min (e - 32 * k) 0 := le_min (by omega) (by norm_num)
  have hs2 : min (e - 32 * k) 0 ≤ 971 := (min_le_right _ _).trans (by norm_num)
  have hdy : Binary64.IsDyadic (min (e - 32 * k) 0) y := (isDyadic_scaled hu k).of_le (min_le_left _ _)
  have hbound : ∀ w, 0 ≤ w → w ≤ y → w < 2 ^ 32 → |w| < 2 ^ (min (e - 32 * k) 0 + 53) := by
    intro w hw0 hwy hw1
    rw [abs_of_nonneg hw0]
    rcases min_cases (e - 32 * k) 0 with ⟨hmin, -⟩ | ⟨hmin, -⟩ <;> rw [hmin]
    · exact hwy.trans_lt (scaled_lt hlt k)
    · exact hw1.trans_le (by norm_num)
  have hsmall : ∀ w : ℚ, 0 ≤ w → w < 2 ^ 32 → |w| < 2 ^ (1023 : ℤ) := fun w hw0 hw1 => by
    rw [abs_of_nonneg hw0]
    refine hw1.trans_le ?_
    rw [← zpow_natCast]
    exact zpow_le_zpow_right₀ one_le_two (by norm_num)
  have hr1 : Binary64.round ((y' - ⌊y'⌋) * bigrad) = v := by
    rw [hv]
    exact Binary64.round_eq_of_isDyadic (hdy.sub (Binary64.isDyadic_intCast (min_le_right _ _) _))
      hs1 hs2 (hbound v hv0 hvy hv1) (hsmall v hv0 hv1)
  -- the digit, `(BDIGIT)u`
  have hfl : ⌊v⌋ = ⌊y⌋ - ⌊y'⌋ * 2 ^ 32 := Int.floor_sub_intCast y _
  have hc : dblToBdigit v = .ok ⌊v⌋ := by
    have h1 : 0 ≤ ⌊v⌋ := Int.floor_nonneg.mpr hv0
    have h2 : ⌊v⌋ < 2 ^ 32 := Int.floor_lt.mpr (by exact_mod_cast hv1)
    rw [dblToBdigit, dblToInt, Binary64.truncate, if_pos hv0, if_pos ⟨h1, by omega⟩]
  -- the difference: the fraction of `y`
  have hvv : v - (⌊v⌋ : ℚ) = y - ⌊y⌋ := by
    rw [hfl, hvdef]
    push_cast
    ring
  have hr2 : Binary64.round (v - ⌊v⌋) = y - ⌊y⌋ := by
    have hfr : 0 ≤ y - ⌊y⌋ := sub_nonneg.mpr (Int.floor_le y)
    have hfr' : y - ⌊y⌋ < 1 := by linarith [Int.lt_floor_add_one y]
    have hfly : (0 : ℚ) ≤ ⌊y⌋ := by exact_mod_cast Int.floor_nonneg.mpr hy0
    rw [hvv]
    exact Binary64.round_eq_of_isDyadic (hdy.sub (Binary64.isDyadic_intCast (min_le_right _ _) _))
      hs1 hs2 (hbound _ hfr (by linarith) (by linarith)) (hsmall _ hfr (by linarith))
  rw [dbl2bigDigits]
  simp only [hr1, hc, bind, Except.bind, hr2]
  congr 1
  rw [hfl]
  ring

/-- **The second loop writes the integer part of `u0`**, from every digit `k ≤ I` down. -/
theorem dbl2bigDigits_eq (hu : Binary64.IsDyadic e u0) (h0 : 0 ≤ u0)
    (hlt : u0 < 2 ^ (e + 53)) {I : ℕ} (hI2 : ∀ t < I, 2 ^ (32 * t) ≤ u0) :
    ∀ k ≤ I, dbl2bigDigits k (u0 / 2 ^ (32 * k) - ⌊u0 / 2 ^ (32 * k)⌋) ⌊u0 / 2 ^ (32 * k)⌋ =
      .ok ⌊u0⌋
  | 0, _ => by simp [dbl2bigDigits]
  | k + 1, hk => by
    rw [dbl2bigDigits_succ hu h0 hlt (hI2 k (by omega))]
    exact dbl2bigDigits_eq hu h0 hlt hI2 k (by omega)

/-- **`rb_dbl2big` returns the integral part of every finite double**, exactly and without an
out-of-range conversion. -/
theorem rbDbl2big_eq {d : ℚ} (hd : Binary64.IsFinite d) :
    rbDbl2big d = .ok (bignorm (.bignum (Binary64.truncate d))) := by
  obtain ⟨m, e, hm, -, he2, hdm⟩ := hd
  -- `|d| = |m| * 2 ^ e`, with `|m| < 2 ^ 53`
  have hpos : (0 : ℚ) < 2 ^ e := zpow_pos two_pos e
  have hdm' : |d| = |(m : ℚ)| * 2 ^ e := by rw [hdm, abs_mul, abs_of_pos hpos]
  have hu : Binary64.IsDyadic e |d| := ⟨|m|, by rw [hdm']; push_cast; rfl⟩
  have h0 : 0 ≤ |d| := abs_nonneg d
  have hlt : |d| < 2 ^ (e + 53) := by
    have hm' : |(m : ℚ)| < 2 ^ (53 : ℤ) := by exact_mod_cast hm
    rw [hdm', zpow_add₀ two_ne_zero, mul_comm (2 ^ e)]
    exact mul_lt_mul_of_pos_right hm' hpos
  -- `I`, the number of digits
  have hex : ∃ I : ℕ, |d| < 2 ^ (32 * I) := by
    refine ⟨32, hlt.trans_le ?_⟩
    rw [← zpow_natCast]
    exact zpow_le_zpow_right₀ one_le_two (by push_cast; omega)
  have hI1 : |d| < 2 ^ (32 * Nat.find hex) := Nat.find_spec hex
  have hI2 : ∀ t < Nat.find hex, 2 ^ (32 * t) ≤ |d| := fun t ht => not_lt.mp (Nat.find_min hex ht)
  have hscale : dbl2bigScale |d| 0 = (|d| / 2 ^ (32 * Nat.find hex), Nat.find hex) := by
    simpa using dbl2bigScale_eq hu h0 hlt he2 hI1 hI2 (Nat.find hex) 0 (by omega)
  -- below 1 after the first loop: the top fraction is the whole value, and nothing is written yet
  have hfl : ⌊|d| / 2 ^ (32 * Nat.find hex)⌋ = 0 :=
    Int.floor_eq_zero_iff.mpr ⟨by positivity, (div_lt_one (by positivity)).mpr hI1⟩
  have hdig := dbl2bigDigits_eq hu h0 hlt hI2 (Nat.find hex) le_rfl
  rw [hfl, Int.cast_zero, sub_zero] at hdig
  simp only [rbDbl2big, hscale, hdig, bind, Except.bind, pure, Except.pure]
  -- `⌊|d|⌋` with the sign of `d` is the integral part towards zero
  unfold Binary64.truncate
  split_ifs with h
  · rw [abs_of_nonneg h]
  · rw [abs_of_neg (not_le.mp h), Int.floor_neg, neg_neg]

end Dbl2big

/-! ## A Bignum against a double -/

/-- **`rb_big_cmp` of a Bignum and the canonical Integer of `t` is the sign of `x - t`**: a
Fixnum `t` is on the side of the Fixnums that the sign of `x` says. -/
theorem rbBigCmp_bignorm {x : ℤ} (hx : fixableP x = false) (t : ℤ) :
    rbBigCmp x (bignorm (.bignum t)) = (SignType.sign ((x : ℚ) - t) : ℤ) := by
  have hx' : ¬(-2 ^ 62 ≤ x ∧ x < 2 ^ 62) := fun h => by
    rw [fixableP_iff.mpr h] at hx
    exact Bool.noConfusion hx
  have hlt : ∀ {a b : ℤ}, a < b → (SignType.sign ((a : ℚ) - b) : ℤ) = -1 := fun h =>
    sign_eq_neg_one (by rw [sub_neg]; exact_mod_cast h)
  have hgt : ∀ {a b : ℤ}, b < a → (SignType.sign ((a : ℚ) - b) : ℤ) = 1 := fun h =>
    sign_eq_one (by rw [sub_pos]; exact_mod_cast h)
  have hbx : bignorm (.bignum x) = .bignum x := by simp [bignorm, hx]
  unfold rbBigCmp
  rw [hbx]
  by_cases ht : fixableP t = true
  · -- `t` is a Fixnum, and `x` is outside the Fixnums on the side of its sign
    have ht' := fixableP_iff.mp ht
    have hbt : bignorm (.bignum t) = .fixnum (long2fix (BitVec.ofInt 64 t)) := by simp [bignorm, ht]
    rw [hbt]
    dsimp only
    split_ifs with h
    · rw [hgt (by omega)]
    · rw [hlt (by omega)]
  · have hbt : bignorm (.bignum t) = .bignum t := by simp [bignorm, ht]
    rw [hbt]
    dsimp only
    -- same signs compare magnitudes, opposite signs decide by the sign of `x`
    simp only [eq_iff_iff]
    split_ifs with h1 h2 h3 h4 h5 h6
    · rw [hlt (by omega)]
    · rw [hgt (by omega)]
    · rw [show x = t by omega, sub_self, sign_zero]; rfl
    · rw [hgt (by omega)]; rfl
    · rw [hlt (by omega)]
    · rw [show x = t by omega, sub_self, sign_zero]; rfl
    · rw [hgt (by omega)]
    · rw [hlt (by omega)]

/-- `rb_big_eq` of a Bignum and the canonical Integer of `t` tests `x = t`: a fixable `t` is a
Fixnum, which `bignorm(x)` never is. -/
theorem rbBigEq_bignorm {x : ℤ} (hx : fixableP x = false) (t : ℤ) :
    rbBigEq x (bignorm (.bignum t)) = decide (x = t) := by
  by_cases ht : fixableP t = true
  · have hne : x ≠ t := fun h => by
      rw [h, ht] at hx
      exact Bool.noConfusion hx
    simp [rbBigEq, bignorm, ht, hx, hne]
  · simp [rbBigEq, bignorm, ht, Bool.beq_eq_decide_eq]

/-- `rb_dbl2big(yi)` for the integral part of a double. -/
theorem rbDbl2big_truncate {yd : ℚ} (hy : Binary64.IsFinite yd) :
    rbDbl2big (Binary64.truncate yd) = .ok (bignorm (.bignum (Binary64.truncate yd))) := by
  rw [rbDbl2big_eq hy.truncate, Binary64.truncate_intCast]

/-- An integer other than the integral part of `d` is on the same side of `d` as of it. -/
theorem sign_sub_of_ne_truncate {n : ℤ} {d : ℚ} (h : n ≠ Binary64.truncate d) :
    (SignType.sign ((n : ℚ) - d) : ℤ) = SignType.sign ((n : ℚ) - Binary64.truncate d) := by
  rcases lt_or_gt_of_ne h with h | h
  · have h' : (n : ℚ) < Binary64.truncate d := by exact_mod_cast h
    rw [sign_eq_neg_one (sub_neg.mpr (Binary64.lt_of_lt_truncate h)),
      sign_eq_neg_one (sub_neg.mpr h')]
  · have h' : (Binary64.truncate d : ℚ) < n := by exact_mod_cast h
    rw [sign_eq_one (sub_pos.mpr (Binary64.lt_of_truncate_lt h)), sign_eq_one (sub_pos.mpr h')]

/-- No integer equals a value with a fraction. -/
theorem intCast_ne_of_fract_ne_zero {n : ℤ} {d : ℚ} (h : d - Binary64.truncate d ≠ 0) :
    (n : ℚ) ≠ d := by
  rintro rfl
  simp [Binary64.truncate_intCast] at h

/-- **On a Bignum, `rb_integer_float_cmp` is the sign of `x - y`**, for every finite `y`:
`rb_big_cmp` against the exact `rb_dbl2big(yi)` decides unless `x = yi`, when the fraction
does. -/
theorem rbIntegerFloatCmp_bignum {n : ℤ} (hn : fixableP n = false) {yd : ℚ}
    (hy : Binary64.IsFinite yd) :
    rbIntegerFloatCmp (.bignum n) (.finite yd) =
      .ok (some (SignType.sign ((n : ℚ) - yd) : ℤ)) := by
  simp only [rbIntegerFloatCmp, modf, rbDbl2big_truncate hy, bind, Except.bind, pure,
    Except.pure, rbBigCmp_bignorm hn]
  by_cases hnt : n = Binary64.truncate yd
  · -- `x = yi`: `rel` is 0 and the sign of the fraction decides
    have hd : (n : ℚ) - yd = -(yd - Binary64.truncate yd) := by rw [hnt]; ring
    rw [hd, hnt, sub_self, sign_zero]
    rcases lt_trichotomy (yd - Binary64.truncate yd) 0 with h | h | h
    · rw [if_neg (by simp [h.ne])]
      simp only [h, ↓reduceIte]
      rw [sign_eq_one (neg_pos.mpr h)]
    · simp [h]
    · rw [if_neg (by simp [h.ne'])]
      simp only [not_lt.mpr h.le, ↓reduceIte]
      rw [sign_eq_neg_one (neg_neg_iff_pos.mpr h)]
  · -- otherwise `rel` is the sign of `x - yi`, which is not 0
    have hrel := sign_sub_of_ne_truncate hnt
    have hne : (SignType.sign ((n : ℚ) - Binary64.truncate yd) : ℤ) ≠ 0 :=
      sign_ne_zero (sub_ne_zero.mpr (by exact_mod_cast hnt))
    rw [if_pos (.inr hne), hrel]

/-- **On a Bignum, `rb_integer_float_eq` tests `x = y`**, for every finite `y`. -/
theorem rbIntegerFloatEq_bignum {n : ℤ} (hn : fixableP n = false) {yd : ℚ}
    (hy : Binary64.IsFinite yd) :
    rbIntegerFloatEq (.bignum n) (.finite yd) = .ok (decide ((n : ℚ) = yd)) := by
  simp only [rbIntegerFloatEq, modf, rbDbl2big_truncate hy, bind, Except.bind, pure,
    Except.pure, rbBigEq_bignorm hn]
  by_cases hyf : yd - Binary64.truncate yd ≠ 0
  · rw [if_pos hyf, decide_eq_false (intCast_ne_of_fract_ne_zero hyf)]
  · rw [if_neg hyf]
    have hyd : yd = Binary64.truncate yd := by linarith [not_not.mp hyf]
    rw [hyd]
    simp [Binary64.truncate_intCast]

/-- **On a Fixnum, `rb_integer_float_eq` tests `x = y`** for every `y` but `2 ^ 63`: outside the
`long` range the test answers `false`, and inside it `(long)yi` is exact. -/
theorem rbIntegerFloatEq_fixnum (a : Fixnum) {yd : ℚ} (h63 : yd ≠ 2 ^ 63) :
    rbIntegerFloatEq (.fixnum a.value) (.finite yd) = .ok (decide ((a.toInt : ℚ) = yd)) := by
  simp only [rbIntegerFloatEq, modf, round_longMin, round_longMax]
  by_cases hyf : yd - Binary64.truncate yd ≠ 0
  · rw [if_pos hyf, decide_eq_false (intCast_ne_of_fract_ne_zero hyf)]
  rw [if_neg hyf]
  have hyd : yd = Binary64.truncate yd := by linarith [not_not.mp hyf]
  have hx := fixableP_iff.mp a.fixableP_toInt
  by_cases hr : (Binary64.truncate yd : ℚ) < -2 ^ 63 ∨ 2 ^ 63 < (Binary64.truncate yd : ℚ)
  · -- out of the `long` range, and so away from every Fixnum
    have hr' : Binary64.truncate yd < -2 ^ 63 ∨ 2 ^ 63 < Binary64.truncate yd := by
      exact_mod_cast hr
    have hne : a.toInt ≠ Binary64.truncate yd := by omega
    rw [if_pos hr, hyd, decide_eq_false (by exact_mod_cast hne)]
  · have hr' : -2 ^ 63 ≤ Binary64.truncate yd ∧ Binary64.truncate yd ≤ 2 ^ 63 := by
      push Not at hr
      exact ⟨by exact_mod_cast hr.1, by exact_mod_cast hr.2⟩
    -- `yi = 2 ^ 63` is excluded, so `yi` fits a `long`
    have h63' : Binary64.truncate yd ≠ 2 ^ 63 := fun h => h63 (by rw [hyd, h]; norm_num)
    have hlo : longMin ≤ Binary64.truncate (Binary64.truncate yd) := by
      rw [Binary64.truncate_intCast, longMin]
      omega
    have hhi : Binary64.truncate (Binary64.truncate yd) ≤ longMax := by
      rw [Binary64.truncate_intCast, longMax]
      omega
    rw [if_neg hr, dblToLong_of_le hlo hhi, Binary64.truncate_intCast]
    generalize Binary64.truncate yd = t at hyd ⊢
    subst hyd
    simp [Fixnum.toInt, Bool.beq_eq_decide_eq]

/-! ## Over every Integer and every double -/

/-- A double the code can be handed: a finite one is on the binary64 grid. -/
def Double.Valid : Double → Prop
  | .finite y => Binary64.IsFinite y
  | _ => True

/-- What comparing an Integer with a Float means: `nil` against NaN, an infinity beyond every
Integer, and otherwise the sign of `n - y` on the exact value of `y`. -/
def integerFloatCmp (n : ℤ) : Double → Option ℤ
  | .nan => none
  | .inf neg => some (if neg then 1 else -1)
  | .finite y => some (SignType.sign ((n : ℚ) - y))

/-- What equality of an Integer and a Float means: `y` is finite and its value is `n`. -/
def integerFloatEq (n : ℤ) : Double → Bool
  | .finite y => decide ((n : ℚ) = y)
  | _ => false

/-- **`rb_integer_float_cmp` is exact** on every canonical Integer and every double. -/
theorem rbIntegerFloatCmp_eq_integerFloatCmp {x : RInteger} (hx : x.Canonical) {y : Double}
    (hy : y.Valid) : rbIntegerFloatCmp x y = .ok (integerFloatCmp x.val y) := by
  cases y with
  | nan => rfl
  | inf neg => rfl
  | finite yd =>
    cases x with
    | fixnum v => exact rbIntegerFloatCmp_fixnum ⟨v, hx⟩ yd
    | bignum n => exact rbIntegerFloatCmp_bignum hx hy

/-- **`rb_integer_float_eq` is exact** on every canonical Integer and every double but `2 ^ 63`. -/
theorem rbIntegerFloatEq_eq_integerFloatEq {x : RInteger} (hx : x.Canonical) {y : Double}
    (hy : y.Valid) (h63 : y ≠ .finite (2 ^ 63)) :
    rbIntegerFloatEq x y = .ok (integerFloatEq x.val y) := by
  cases y with
  | nan => rfl
  | inf neg => rfl
  | finite yd =>
    cases x with
    | fixnum v => exact rbIntegerFloatEq_fixnum ⟨v, hx⟩ (fun h => h63 (by rw [h]))
    | bignum n => exact rbIntegerFloatEq_bignum hx hy

theorem truncate_two_pow (n : ℕ) : Binary64.truncate (2 ^ n) = 2 ^ n := by
  have h := Binary64.truncate_intCast (2 ^ n)
  rwa [Int.cast_pow, Int.cast_ofNat] at h

/-- `(long)yi` of the double `2 ^ 63` is out of the `long` range. -/
theorem dblToLong_two_pow_63 : dblToLong (2 ^ 63) = .error (.dblToInt (2 ^ 63)) := by
  rw [dblToLong, dblToInt, if_neg (by rw [truncate_two_pow, longMax]; omega)]

/-- Every Fixnum compared for equality with the double `2 ^ 63` reaches `(long)yi` with
`yi = 2 ^ 63`: `LONG_MAX < yi` compares `(double)LONG_MAX = 2 ^ 63` with `2 ^ 63`. -/
theorem integer_float_eq_long_overflow (a : Fixnum) :
    Double.Valid (.finite (2 ^ 63)) ∧
      rbIntegerFloatEq (.fixnum a.value) (.finite (2 ^ 63)) = .error (.dblToInt (2 ^ 63)) := by
  refine ⟨⟨1, 63, by norm_num, by norm_num, by norm_num, by norm_num⟩, ?_⟩
  simp only [rbIntegerFloatEq, modf, round_longMin, round_longMax]
  rw [truncate_two_pow, Int.cast_pow, Int.cast_ofNat]
  -- the fraction is 0 and the range test lets `2 ^ 63` through
  rw [if_neg (by simp), if_neg (by norm_num), dblToLong_two_pow_63]
  rfl

end CRuby.Num
