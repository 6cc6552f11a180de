import CRuby.Num.FixArith
import CRuby.Num.PowMod
import Mathlib.Data.Nat.Size
import Mathlib.Tactic.Linarith
import Mathlib.Tactic.Ring

/-!
# `int_pow` (numeric.c)

`int_pow(x, y)` raises the `long` value `x` of a Fixnum to an `unsigned long` power `y`, the
`Integer#**` of two Fixnums and `rb_int_positive_pow` of `Array#repeated_permutation`'s size,
`Integer#round` and the others. It works on `|x|`, keeps the sign of an odd power in `neg` and
an accumulator `z`, clears the low bit of `y`, and then runs

    do { while (y % 2 == 0) { x = x * x; y >>= 1; } z = x * z; } while (--y);

jumping to `rb_big_pow` as soon as `x * x` or `x * z` would leave a `long` or a Fixnum.

* The loop keeps `|x₀| ^ y₀ = z * x ^ y` (`intPowLoop_spec`), and on every `y ≥ 2`, and on
  `y = 1` with `|x| ≥ 2`, `int_pow` returns `x ^ y`, or a Float only where `rb_big_pow`'s size
  limit trips on a factor of it (`intPow_spec`).
* For `y = 1` the low bit is cleared before the loop, which then starts on `y = 0`: the inner
  `while` never ends unless `x * x` leaves the square-root range, and for `|x| ≤ 1` it never
  does (`intPow_one_diverges`). `[1].repeated_permutation(1).size` is such a call
  (`repeated_permutation_size_never_returns`).

Values are integers; a Bignum is the number it holds and `rb_big_mul` its product. What
`rb_big_pow` answers that is not an Integer (a Float, or a Rational for a negative exponent) is
not modelled beyond its kind.
-/

namespace CRuby.Num

/-- What `int_pow` returns. -/
inductive PowResult where
  /-- an Integer -/
  | int (v : ℤ)
  /-- a Float from `rb_big_pow` -/
  | float
  /-- what `rb_big_pow` answers for a negative exponent, through `Rational#**` -/
  | rational
  deriving DecidableEq, Repr

/-- `SQRT_LONG_MAX`: `HALF_LONG_MSB`. -/
def sqrtLongMax : ℤ := halfLongMsb

/-- `FIT_SQRT_LONG(n)`: `n * n` does not overflow a `long`. -/
def fitSqrtLong (n : ℤ) : Bool := n < sqrtLongMax && n ≥ -sqrtLongMax

/-- `BIGLEN_LIMIT` of `rb_big_pow`. -/
def bigLenLimit : ℕ := 32 * 1024 * 1024

/-- `rb_absint_numwords(x, 1, NULL)`: the bytes of `|x|`. -/
def absintNumBytes (x : ℤ) : ℕ := (Nat.size x.natAbs + 7) / 8

/-- `rb_big_pow(x, y)` of a Bignum `x` and an Integer `y`: `x ** y` by repeated squaring, unless
the result would pass `BIGLEN_LIMIT` bytes or `y` is a Bignum, where it answers
`pow(big2dbl(x), (double)y)`. -/
def rbBigPow (x y : ℤ) : PowResult :=
  if y = 0 then .int 1
  else if fixableP y then
    if y < 0 then .rational
    else if absintNumBytes x > bigLenLimit ∨ absintNumBytes x * y.toNat > bigLenLimit then .float
    else .int (x ^ y.toNat)
  else .float

/-- `LONG2NUM(y)` of an `unsigned long` `y`: the `long` of the same bits. -/
def ulongAsLong (y : ℕ) : ℤ := if y < 2 ^ 63 then y else y - 2 ^ 64

/-- The `bignum:` label of `int_pow`: `rb_big_pow(rb_int2big(x), LONG2NUM(y))`, returned as it
is if it is a Float, else multiplied by `neg ? -z : z` unless `z` is 1. -/
def intPowBignum (x : ℤ) (y : ℕ) (z : ℤ) (neg : Bool) : PowResult :=
  match rbBigPow x (ulongAsLong y) with
  | .float => .float
  | .int v => if z ≠ 1 then .int ((if neg then -z else z) * v) else .int v
  | .rational => .rational

/-- The loops of `int_pow` from the test of the inner `while`, for at most `fuel` turns of
either; `none` when the fuel runs out. -/
def intPowLoop (bld : Build) : ℕ → ℤ → ℕ → ℤ → Bool → Option PowResult
  | 0, _, _, _, _ => none
  | fuel + 1, x, y, z, neg =>
    if y % 2 = 0 then
      -- `while (y % 2 == 0) { if (!FIT_SQRT_LONG(x)) goto bignum; x = x * x; y >>= 1; }`
      if !fitSqrtLong x then some (intPowBignum x y z neg)
      else intPowLoop bld fuel (x * x) (y >>> 1) z neg
    else if mulOverflowFixnumP bld (BitVec.ofInt 64 x) (BitVec.ofInt 64 z) then
      some (intPowBignum x y z neg)
    -- `z = x * z; } while (--y); if (neg) z = -z; return LONG2NUM(z);`
    else if y - 1 = 0 then some (.int (if neg then -(x * z) else x * z))
    else intPowLoop bld fuel x (y - 1) (x * z) neg

/-- `int_pow(x, y)`. -/
def intPow (bld : Build) (fuel : ℕ) (x : ℤ) (y : ℕ) : Option PowResult :=
  if y = 0 then some (.int 1)
  else
    let neg := decide (x < 0)
    let x := if neg then -x else x
    -- `if (y & 1) z = x; else neg = 0;` and `y &= ~1`
    if y % 2 = 1 then intPowLoop bld fuel x (y - 1) x neg
    else intPowLoop bld fuel x y 1 false

/-- `rb_int_positive_pow(x, y)`. -/
def rbIntPositivePow (bld : Build) (fuel : ℕ) (x : ℤ) (y : ℕ) : Option PowResult :=
  intPow bld fuel x y

/-- `rb_ary_repeated_permutation_size` of an array of `n` elements and the argument `k`. -/
def rbAryRepeatedPermutationSize (bld : Build) (fuel : ℕ) (n k : ℤ) : Option PowResult :=
  if k < 0 then some (.int 0)
  else if n ≤ 0 then some (.int (if k = 0 then 1 else 0))
  else rbIntPositivePow bld fuel n k.toNat

/-! ## `y = 1` -/

/-- On `y = 0` the inner `while` only squares `x`; a fixed point of squaring in the range never
leaves it. -/
theorem intPowLoop_zero_of_sq_eq (bld : Build) {x : ℤ} (hsq : x * x = x)
    (hfit : fitSqrtLong x = true) (z : ℤ) (neg : Bool) : ∀ fuel, intPowLoop bld fuel x 0 z neg = none := by
  intro fuel
  induction fuel with
  | zero => rfl
  | succ fuel ih =>
    rw [intPowLoop, if_pos (Nat.zero_mod 2), hfit, hsq]
    exact ih

/-- **`int_pow(x, 1)` never returns for `|x| ≤ 1`.** -/
theorem intPow_one_diverges (bld : Build) {x : ℤ} (hx : -1 ≤ x ∧ x ≤ 1) (fuel : ℕ) :
    intPow bld fuel x 1 = none := by
  unfold intPow
  simp only [show (1 : ℕ) ≠ 0 by decide, if_false, Nat.one_mod, if_true, Nat.sub_self]
  -- `|x|` is 0 or 1, a fixed point of squaring in the range
  obtain rfl | rfl | rfl : x = -1 ∨ x = 0 ∨ x = 1 := by omega
  all_goals exact intPowLoop_zero_of_sq_eq bld (by decide) (by decide) _ _ fuel

/-- **`[1].repeated_permutation(1).size` never returns**: it is `int_pow(1, 1)`. -/
theorem repeated_permutation_size_never_returns (bld : Build) (fuel : ℕ) :
    rbAryRepeatedPermutationSize bld fuel 1 1 = none := by
  unfold rbAryRepeatedPermutationSize rbIntPositivePow
  rw [if_neg (by decide), if_neg (by decide)]
  exact intPow_one_diverges bld ⟨by decide, by decide⟩ fuel

/-! ## Every other call -/

/-- What the loops answer from a state with `z * x ^ y = P`: `±P` as an Integer, or the
`bignum:` label on a state that keeps `z * x ^ y = P`, with an `x` past 1 and, for an odd
power of a negative number, a `z` that is not 1. -/
def PowAnswer (P : ℤ) (neg : Bool) (r : PowResult) : Prop :=
  r = .int (if neg then -P else P) ∨
    ∃ x y z, z * x ^ y = P ∧ 1 ≤ y ∧ y < 2 ^ 63 ∧ 2 ≤ x ∧ (neg = true → z ≠ 1) ∧
      r = intPowBignum x y z neg

theorem fitSqrtLong_iff {n : ℤ} : fitSqrtLong n = true ↔ -2 ^ 31 ≤ n ∧ n < 2 ^ 31 := by
  rw [fitSqrtLong, Bool.and_eq_true, decide_eq_true_iff, decide_eq_true_iff, sqrtLongMax,
    halfLongMsb]
  omega

/-- `MUL_OVERFLOW_FIXNUM_P(x, z)` on two `long`s with `z` a Fixnum's value. -/
theorem mulOverflowFixnumP_ofInt (bld : Build) {x z : ℤ} (hx0 : 0 ≤ x) (hx : x < 2 ^ 63)
    (hz : fixableP z = true) :
    mulOverflowFixnumP bld (BitVec.ofInt 64 x) (BitVec.ofInt 64 z) = true ↔
      fixableP (x * z) = false := by
  have hzl := (fixableP_iff.mp hz)
  have hx' : (BitVec.ofInt 64 x).toInt = x := by
    rw [BitVec.toInt_ofInt, Int.bmod_def]
    split_ifs <;> omega
  have hz' : (BitVec.ofInt 64 z).toInt = z := by
    rw [BitVec.toInt_ofInt, Int.bmod_def]
    split_ifs <;> omega
  rw [mulOverflowFixnumP_iff bld (by rw [hz']; exact hz), hx', hz']

/-- **The loops of `int_pow`** from a state with `1 ≤ y` answer within `y` turns, keeping
`z * x ^ y`. The accumulator is a Fixnum's value, but for `int_pow(FIXNUM_MIN, y)` with an odd `y`,
where it is `2 ^ 62` and the first test of `x` jumps to `bignum:` before `z` is read. -/
theorem intPowLoop_spec (bld : Build) : ∀ fuel x y z neg, 0 ≤ x → x < 2 ^ 63 → 0 ≤ z →
    (fixableP z = true ∨ fitSqrtLong x = false ∧ y % 2 = 0) →
    (neg = true → 2 ≤ x ∧ 2 ≤ z ∨ x ≤ 1) → 1 ≤ y → y ≤ fuel → y < 2 ^ 63 →
    ∃ r, intPowLoop bld fuel x y z neg = some r ∧ PowAnswer (z * x ^ y) neg r := by
  intro fuel
  induction fuel with
  | zero => intro x y z neg _ _ _ _ _ hy1 hyf; omega
  | succ fuel ih =>
    intro x y z neg hx0 hx1 hz0 hz hneg hy1 hyf hy63
    rw [intPowLoop]
    by_cases heven : y % 2 = 0
    · rw [if_pos heven]
      by_cases hfit : fitSqrtLong x = true
      · -- `x = x * x; y >>= 1`
        simp only [hfit, Bool.not_true, Bool.false_eq_true, if_false]
        have hzf : fixableP z = true := hz.resolve_right (by rw [hfit]; simp)
        have hfit' := fitSqrtLong_iff.mp hfit
        have hxx : x * x < 2 ^ 62 := by nlinarith
        have hsq : (x * x) ^ (y >>> 1) = x ^ y := by
          rw [Nat.shiftRight_eq_div_pow, pow_one, ← pow_two, ← pow_mul]
          congr 1
          omega
        obtain ⟨r, hr, hans⟩ := ih (x * x) (y >>> 1) z neg (mul_nonneg hx0 hx0) (by omega) hz0
          (.inl hzf) (fun h => (hneg h).imp (fun h2 => ⟨by nlinarith, h2.2⟩) (fun h2 => by nlinarith))
          (by rw [Nat.shiftRight_eq_div_pow]; omega) (by rw [Nat.shiftRight_eq_div_pow]; omega)
          (by rw [Nat.shiftRight_eq_div_pow]; omega)
        rw [hsq] at hans
        exact ⟨r, hr, hans⟩
      · -- `goto bignum`: `x` is past the square root of `LONG_MAX`
        rw [Bool.not_eq_true] at hfit
        simp only [hfit, Bool.not_false, if_true]
        have hx2 : 2 ≤ x := by
          by_contra hlt
          have := fitSqrtLong_iff.mpr (show -2 ^ 31 ≤ x ∧ x < 2 ^ 31 by omega)
          rw [hfit] at this
          cases this
        refine ⟨_, rfl, .inr ⟨x, y, z, rfl, hy1, hy63, hx2, fun h => ?_, rfl⟩⟩
        rcases hneg h with h2 | h2 <;> omega
    · rw [if_neg heven]
      have hzf : fixableP z = true := hz.resolve_right (fun h => heven h.2)
      by_cases hov : fixableP (x * z) = false
      · -- `goto bignum`: `x * z` is not a Fixnum, so `x` is past 1
        rw [if_pos ((mulOverflowFixnumP_ofInt bld hx0 hx1 hzf).mpr hov)]
        have hx2 : 2 ≤ x := by
          by_contra hlt
          obtain rfl | rfl : x = 0 ∨ x = 1 := by omega
          · exact absurd hov (by rw [zero_mul]; decide)
          · exact absurd hov (by rw [one_mul, hzf]; decide)
        refine ⟨_, rfl, .inr ⟨x, y, z, rfl, hy1, hy63, hx2, fun h => ?_, rfl⟩⟩
        rcases hneg h with h2 | h2 <;> omega
      · rw [Bool.not_eq_false] at hov
        rw [if_neg (by rw [mulOverflowFixnumP_ofInt bld hx0 hx1 hzf]; simp [hov])]
        by_cases hlast : y - 1 = 0
        · -- `--y` reaches 0
          rw [if_pos hlast]
          obtain rfl : y = 1 := by omega
          refine ⟨_, rfl, .inl ?_⟩
          rw [pow_one, mul_comm z x]
        · -- `z = x * z`, and the next turn squares again
          rw [if_neg hlast]
          have hxz := fixableP_iff.mp hov
          obtain ⟨r, hr, hans⟩ := ih x (y - 1) (x * z) neg hx0 hx1 (mul_nonneg hx0 hz0) (.inl hov)
            (fun h => (hneg h).imp (fun h2 => ⟨h2.1, by nlinarith⟩) id) (by omega) (by omega)
            (by omega)
          have hP : x * z * x ^ (y - 1) = z * x ^ y := by
            obtain ⟨k, rfl⟩ : ∃ k, y = k + 1 := ⟨y - 1, by omega⟩
            rw [Nat.add_sub_cancel, pow_succ]
            ring
          rw [hP] at hans
          exact ⟨r, hr, hans⟩

/-- More fuel changes no answer. -/
theorem intPowLoop_mono (bld : Build) : ∀ fuel x y z neg r, intPowLoop bld fuel x y z neg = some r →
    ∀ fuel', fuel ≤ fuel' → intPowLoop bld fuel' x y z neg = some r := by
  intro fuel
  induction fuel with
  | zero => intro x y z neg r h; cases h
  | succ fuel ih =>
    intro x y z neg r h fuel' hf
    obtain ⟨f, rfl⟩ : ∃ f, fuel' = f + 1 := ⟨fuel' - 1, by omega⟩
    rw [intPowLoop] at h ⊢
    split_ifs at h ⊢ <;> first | exact h | exact ih _ _ _ _ _ h f (by omega)

/-- On `y = 0` the inner `while` squares an `x ≥ 2` out of the square-root range within six
turns, and `bignum:` raises it to the power 0. -/
theorem intPowLoop_zero (bld : Build) (z : ℤ) (neg : Bool) : ∀ fuel x, 2 ≤ x → x < 2 ^ 63 →
    (2 : ℤ) ^ 2 ^ (6 - fuel) ≤ x →
      ∃ x', 2 ≤ x' ∧ intPowLoop bld fuel x 0 z neg = some (intPowBignum x' 0 z neg) := by
  intro fuel
  induction fuel with
  | zero => intro x _ hx1 hbig; norm_num at hbig; omega
  | succ fuel ih =>
    intro x hx2 hx1 hbig
    rw [intPowLoop, if_pos (Nat.zero_mod 2)]
    by_cases hfit : fitSqrtLong x = true
    · simp only [hfit, Bool.not_true, Bool.false_eq_true, if_false, Nat.zero_shiftRight]
      have hfit' := fitSqrtLong_iff.mp hfit
      -- `x * x` squares the lower bound
      have hexp : 2 ^ (6 - fuel) ≤ 2 ^ (6 - (fuel + 1)) + 2 ^ (6 - (fuel + 1)) := by
        rcases Nat.lt_or_ge fuel 6 with h | h
        · rw [show 6 - fuel = 6 - (fuel + 1) + 1 by omega, pow_succ]
          omega
        · rw [show 6 - fuel = 0 by omega, show 6 - (fuel + 1) = 0 by omega]
          decide
      have hsq : (2 : ℤ) ^ 2 ^ (6 - fuel) ≤ x * x :=
        calc (2 : ℤ) ^ 2 ^ (6 - fuel)
            ≤ 2 ^ (2 ^ (6 - (fuel + 1)) + 2 ^ (6 - (fuel + 1))) :=
              pow_le_pow_right₀ (by norm_num) hexp
          _ = 2 ^ 2 ^ (6 - (fuel + 1)) * 2 ^ 2 ^ (6 - (fuel + 1)) := pow_add _ _ _
          _ ≤ x * x := mul_le_mul hbig hbig (by positivity) (by omega)
      exact ih (x * x) (by nlinarith) (by nlinarith) hsq
    · rw [Bool.not_eq_true] at hfit
      refine ⟨x, hx2, ?_⟩
      simp only [hfit, Bool.not_false, if_true]

theorem ulongAsLong_of_lt {y : ℕ} (h : y < 2 ^ 63) : ulongAsLong y = y := by
  rw [ulongAsLong, if_pos h]

theorem rbBigPow_zero (x : ℤ) : rbBigPow x 0 = .int 1 := by
  rw [rbBigPow, if_pos rfl]

/-- `rb_big_pow` of a natural exponent answers `x ^ y` when it answers an Integer. -/
theorem rbBigPow_eq_int {x v : ℤ} {y : ℕ} (h : rbBigPow x y = .int v) : v = x ^ y := by
  unfold rbBigPow at h
  split_ifs at h with h0 <;> cases h
  · rw [Int.natCast_eq_zero.mp h0, pow_zero]
  · rw [Int.toNat_natCast]

/-- `rb_big_pow` of a natural exponent is never a Rational. -/
theorem rbBigPow_ne_rational (x : ℤ) (y : ℕ) : rbBigPow x y ≠ .rational := by
  unfold rbBigPow
  split_ifs with _ _ hneg <;> first | omega | exact PowResult.noConfusion

/-- `rb_big_pow` answers no Float on a power `x ^ y` of at most `2 ^ B` bits for `B ≤ 2 ^ 24`: the
bytes of `x` times `y` stay below `BIGLEN_LIMIT`. -/
theorem rbBigPow_ne_float {x : ℤ} {y B : ℕ} (hx : 2 ≤ x) (hy : 0 < y) (hle : x ^ y ≤ 2 ^ B)
    (hB : B ≤ 2 ^ 24) : rbBigPow x y ≠ .float := by
  -- `x` has `k + 1` bits, so `2 ^ (k * y) ≤ x ^ y` and `k * y ≤ B`
  obtain ⟨k, hk⟩ : ∃ k, Nat.size x.natAbs = k + 1 :=
    ⟨Nat.size x.natAbs - 1, by have := Nat.size_pos.mpr (show 0 < x.natAbs by omega); omega⟩
  have hk1 : 1 ≤ k := by
    have := Nat.lt_size.mpr (show 2 ^ 1 ≤ x.natAbs by omega)
    omega
  have hxk : (2 : ℤ) ^ k ≤ x := by
    have h := Nat.lt_size.mp (show k < Nat.size x.natAbs by omega)
    have h' : ((2 ^ k : ℕ) : ℤ) ≤ (x.natAbs : ℤ) := by exact_mod_cast h
    rw [Int.natCast_natAbs, abs_of_nonneg (by omega)] at h'
    exact_mod_cast h'
  have hky : k * y ≤ B := by
    have h : (2 : ℤ) ^ (k * y) ≤ 2 ^ B := by
      rw [pow_mul]
      exact (pow_le_pow_left₀ (by positivity) hxk y).trans hle
    exact (pow_le_pow_iff_right₀ (by norm_num)).mp h
  have hyk : y ≤ k * y := Nat.le_mul_of_pos_left y hk1
  -- the bytes of `x` times `y`: `8 * ((k + 8) / 8) * y ≤ (k + 8) * y ≤ 9 * B`
  have hbytes : absintNumBytes x * y ≤ 2 ^ 25 := by
    have h8 : (k + 8) / 8 * 8 ≤ k + 8 := Nat.div_mul_le_self _ _
    have h : (k + 8) / 8 * y * 8 ≤ k * y + 8 * y := by
      calc (k + 8) / 8 * y * 8 = (k + 8) / 8 * 8 * y := by ring
        _ ≤ (k + 8) * y := Nat.mul_le_mul_right y h8
        _ = k * y + 8 * y := by ring
    rw [absintNumBytes, hk, show k + 1 + 7 = k + 8 by omega]
    omega
  have hbytes1 : absintNumBytes x ≤ 2 ^ 25 := by
    have : k ≤ k * y := Nat.le_mul_of_pos_right k hy
    rw [absintNumBytes, hk]
    omega
  rw [rbBigPow, if_neg (by omega), if_pos (fixableP_iff.mpr ⟨by omega, by omega⟩), if_neg (by omega),
    if_neg (by rw [Int.toNat_natCast, bigLenLimit]; omega)]
  exact PowResult.noConfusion

/-- **What the loops answer**, once `bignum:` is run: the Integer `±P`, or the Float that
`rb_big_pow` answers on a factor of `P`. -/
theorem PowAnswer.cases {P : ℤ} {neg : Bool} {r : PowResult} (h : PowAnswer P neg r) :
    r = .int (if neg then -P else P) ∨
      ∃ (x : ℤ) (y : ℕ), 2 ≤ x ∧ 0 < y ∧ x ^ y ∣ P ∧ rbBigPow x y = .float ∧ r = .float := by
  rcases h with h | ⟨x, y, z, hP, hy1, hy63, hx2, hz, hr⟩
  · exact .inl h
  subst hr
  simp only [intPowBignum, ulongAsLong_of_lt hy63]
  rcases hb : rbBigPow x y with v | - | -
  · -- an Integer: `±z * x ^ y`, and `z` is 1 only for a non-negative result
    rw [rbBigPow_eq_int hb]
    refine .inl ?_
    by_cases hz1 : z = 1
    · have hneg : neg = false := by
        cases neg
        · rfl
        · exact absurd hz1 (hz rfl)
      subst hz1 hneg
      rw [one_mul] at hP
      simp [hP]
    · dsimp only
      rw [if_pos hz1]
      cases neg <;> simp [← hP]
  · exact .inr ⟨x, y, hx2, by omega, Dvd.intro_left z hP, hb, rfl⟩
  · exact absurd hb (rbBigPow_ne_rational x y)

/-- `x ^ y` from `|x| ^ y` and the sign of an odd power. -/
theorem pow_eq_of_abs {x a : ℤ} (hxa : (if x < 0 then -x else x) = a) (y : ℕ) :
    x ^ y = if x < 0 ∧ y % 2 = 1 then -a ^ y else a ^ y := by
  by_cases hx : x < 0
  · rw [if_pos hx] at hxa
    subst hxa
    rcases Nat.even_or_odd y with he | ho
    · rw [if_neg (fun h => by have := Nat.even_iff.mp he; omega), he.neg_pow]
    · rw [if_pos ⟨hx, Nat.odd_iff.mp ho⟩, ho.neg_pow, neg_neg]
  · rw [if_neg hx] at hxa
    subst hxa
    rw [if_neg (fun h => hx h.1)]

/-- **`int_pow(x, y)`** for a Fixnum's value `x` and every `y < 2 ^ 63` (what every caller passes)
but `y = 1` with `|x| ≤ 1`: with `y + 6` turns of fuel it returns the Integer `x ^ y`, or a Float
where `rb_big_pow` answers one on a factor of `x ^ y`. -/
theorem intPow_spec (bld : Build) {x : ℤ} (hx : fixableP x = true) {y : ℕ} (hy : y < 2 ^ 63)
    (h1 : y = 1 → x ≤ -2 ∨ 2 ≤ x) :
    ∃ r, (∀ fuel, y + 6 ≤ fuel → intPow bld fuel x y = some r) ∧
      (r = .int (x ^ y) ∨
        ∃ (x' : ℤ) (y' : ℕ), 2 ≤ x' ∧ 0 < y' ∧ x' ^ y' ∣ x ^ y ∧ rbBigPow x' y' = .float ∧
          r = .float) := by
  have hxl := fixableP_iff.mp hx
  rcases Nat.eq_zero_or_pos y with rfl | hy0
  · exact ⟨.int 1, fun fuel _ => rfl, .inl (by rw [pow_zero])⟩
  -- `a = |x|`, and `x ^ y` is `±a ^ y`
  obtain ⟨a, hxa⟩ : ∃ a, (if x < 0 then -x else x) = a := ⟨_, rfl⟩
  have ha : 0 ≤ a ∧ a ≤ 2 ^ 62 := by rw [← hxa]; split_ifs <;> omega
  have hpow := pow_eq_of_abs hxa y
  have hint : ∀ fuel, intPow bld fuel x y = if y % 2 = 1 then
      intPowLoop bld fuel a (y - 1) a (decide (x < 0)) else intPowLoop bld fuel a y 1 false := by
    intro fuel
    simp only [intPow, if_neg hy0.ne', decide_eq_true_eq, hxa]
  -- the answer of the loops, and `x ^ y` from it
  have hfinish : ∀ (neg : Bool) (r : PowResult), (neg = true ↔ x < 0 ∧ y % 2 = 1) →
      PowAnswer (a ^ y) neg r → r = .int (x ^ y) ∨
        ∃ (x' : ℤ) (y' : ℕ), 2 ≤ x' ∧ 0 < y' ∧ x' ^ y' ∣ x ^ y ∧ rbBigPow x' y' = .float ∧
          r = .float := by
    intro neg r hneg hans
    rcases hans.cases with h | ⟨x', y', hx2', hy', hdvd, hb, hr⟩
    · refine .inl ?_
      rw [h, hpow]
      cases neg <;> simp_all
    · refine .inr ⟨x', y', hx2', hy', ?_, hb, hr⟩
      rw [hpow]
      split_ifs
      · exact (Int.dvd_neg).mpr hdvd
      · exact hdvd
  rcases Nat.mod_two_eq_zero_or_one y with heven | hodd
  · -- an even power: `z = 1`, no sign
    obtain ⟨r, hr, hans⟩ := intPowLoop_spec bld y a y 1 false ha.1 (by omega) (by decide)
      (.inl (by decide)) (by simp) hy0 (le_refl y) hy
    rw [one_mul] at hans
    refine ⟨r, fun fuel hf => ?_, hfinish false r (by simp [heven]) hans⟩
    rw [hint, if_neg (by omega)]
    exact intPowLoop_mono bld _ _ _ _ _ _ hr fuel (by omega)
  · by_cases hy1 : y = 1
    · -- `y = 1`: the loops start on `y = 0` and square `a ≥ 2` out of the range
      subst hy1
      have ha2 : 2 ≤ a := by rw [← hxa]; split_ifs <;> omega
      refine ⟨.int x, fun fuel hf => ?_, .inl (by rw [pow_one])⟩
      obtain ⟨x', -, hx'⟩ := intPowLoop_zero bld a (decide (x < 0)) fuel a ha2 (by omega)
        (by rw [show 6 - fuel = 0 by omega]; simpa using ha2)
      have hbig : intPowBignum x' 0 a (decide (x < 0)) = .int (if x < 0 then -a else a) := by
        rw [intPowBignum, ulongAsLong_of_lt (by decide), Nat.cast_zero, rbBigPow_zero]
        dsimp only
        rw [if_pos (show a ≠ 1 by omega), mul_one]
        simp only [decide_eq_true_eq]
      rw [hint, if_pos hodd, Nat.sub_self, hx', hbig, ← hxa]
      by_cases hx0 : x < 0 <;> simp [hx0]
    · -- an odd power: `z = a` and the sign of `x`
      have hz : fixableP a = true ∨ fitSqrtLong a = false ∧ (y - 1) % 2 = 0 := by
        rcases Int.lt_or_eq_of_le ha.2 with hlt | heq
        · exact .inl (fixableP_iff.mpr ⟨by omega, hlt⟩)
        · refine .inr ⟨?_, by omega⟩
          rw [heq]
          decide
      obtain ⟨r, hr, hans⟩ := intPowLoop_spec bld (y - 1) a (y - 1) a (decide (x < 0)) ha.1
        (by omega) ha.1 hz (fun _ => by omega) (by omega) (le_refl _) (by omega)
      rw [show a * a ^ (y - 1) = a ^ y by
        rw [← pow_succ', Nat.sub_add_cancel hy0]] at hans
      refine ⟨r, fun fuel hf => ?_, hfinish _ r (by simp [hodd]) hans⟩
      rw [hint, if_pos hodd]
      exact intPowLoop_mono bld _ _ _ _ _ _ hr fuel (by omega)

end CRuby.Num
