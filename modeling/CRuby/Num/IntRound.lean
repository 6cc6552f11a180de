import CRuby.Num.IntPow
import CRuby.Lib.Binary64

/-!
# Rounding an Integer to a power of ten (numeric.c)

`Integer#round`, `#floor`, `#ceil` and `#truncate` with `ndigits < 0`, and `Float#round`,
`#floor` and `#ceil` of a Float with `ndigits < 0`, call `rb_int_round`, `rb_int_floor`,
`rb_int_ceil` and `rb_int_truncate` with `f = int_pow(10, -ndigits)`. Each first returns 0 when
`int_round_zero_p`, a floating-point estimate of `|num| < f / 2` from the byte size of `num`,
holds. Otherwise it works on `|num|` with C's division when `num` and `f` are Fixnums, and with
Ruby's floored `%` on Integers when one is a Bignum (`intRoundWith`).

* The estimate is sound: with every double operation rounded, it holds only where
  `2 * |num| < f` (`intRoundZeroP_sound`), and it holds for every Fixnum from 20 digits on
  (`intRoundZeroP_of_fixnum`).
* `rb_int_round` returns the multiple of `f` nearest `num`, a tie broken by the mode, on every
  path (`rbIntRound_spec`).
* `rb_int_floor`, `rb_int_ceil` and `rb_int_truncate` return the multiple they are for, but
  where the estimate answers 0 for the floor of a negative `num` or the ceiling of a positive
  one, and where the Integer path adds `f` to a multiple of `f`: the ceiling of any multiple,
  and the truncation of a negative one (`rbIntFloor_spec`, `rbIntCeil_spec`,
  `rbIntTruncate_spec`).
* For `ndigits = 0`, where `f = 1`, the half-down Fixnum path subtracts 1 from `|num|`.

Integers are values, as in the model of `int_pow`. The `SIGNED_VALUE` arithmetic of the Fixnum
paths does not overflow: `|num| ≤ 2 ^ 62` and `f < 2 ^ 62`.
-/

namespace CRuby.Num

/-- `enum ruby_num_rounding_mode`. -/
inductive RoundingMode where
  | halfUp
  | halfEven
  | halfDown
  deriving DecidableEq, Repr

/-! ## The model -/

/-- The double nearest `0.415241`, below `log_256(10)`. -/
def log256Ten : ℚ := Binary64.round (415241 / 1000000)

/-- The `bytes` of `int_round_zero_p`: `sizeof(long)` for a Fixnum, `rb_big_size(num)` for a
Bignum. -/
def intRoundBytes (num : ℤ) : ℕ := if fixableP num then 8 else absintNumBytes num

/-- `int_round_zero_p(num, ndigits)`: `-0.415241 * ndigits - 0.125 > bytes`, each double
operation rounded. -/
def intRoundZeroP (num ndigits : ℤ) : Bool :=
  decide ((intRoundBytes num : ℚ) <
    Binary64.round (Binary64.round (-log256Ten * ndigits) - 1 / 8))

/-- `int_round_half_even(x, y)`. -/
def intRoundHalfEven (x y : ℤ) : ℤ :=
  let z := (x + y.tdiv 2).tdiv y
  -- `z &= ~1` clears the low bit
  let z := if (z * y - x) * 2 = y then z - z % 2 else z
  z * y

/-- `int_round_half_up(x, y)`. -/
def intRoundHalfUp (x y : ℤ) : ℤ := (x + y.tdiv 2).tdiv y * y

/-- `int_round_half_down(x, y)`. -/
def intRoundHalfDown (x y : ℤ) : ℤ := (x + y.tdiv 2 - 1).tdiv y * y

/-- `ROUND_CALL(mode, int_round, (x, y))`. -/
def intRoundCall : RoundingMode → ℤ → ℤ → ℤ
  | .halfEven => intRoundHalfEven
  | .halfUp => intRoundHalfUp
  | .halfDown => intRoundHalfDown

/-- `ROUND_CALL(mode, int_half_p, (num, n, f))`: whether a tie between `n` and `n + f` goes to
`n + f`. -/
def intHalfP : RoundingMode → ℤ → ℤ → ℤ → Bool
  -- `rb_int_odd_p(rb_int_idiv(n, f))`
  | .halfEven, _, n, f => n.fdiv f % 2 = 1
  -- `int_pos_p(num)`
  | .halfUp, num, _, _ => 0 < num
  -- `int_neg_p(num)`
  | .halfDown, num, _, _ => num < 0

/-- What `rb_int_round`, `rb_int_floor`, `rb_int_ceil` and `rb_int_truncate` share: 0 when
`int_round_zero_p` holds; else `f = int_pow(10, -ndigits)`, then `fix` on the values of two
Fixnums `num` and `f`, 0 when `int_pow` overflowed to a Float, and `gen` on Integers. -/
def intRoundWith (bld : Build) (fuel : ℕ) (num ndigits : ℤ) (fix gen : ℤ → ℤ → ℤ) :
    Option ℤ :=
  if intRoundZeroP num ndigits then some 0
  else
    match intPow bld fuel 10 (-ndigits).toNat with
    | some (.int f) => some (if fixableP num && fixableP f then fix num f else gen num f)
    -- `if (RB_TYPE_P(f, T_FLOAT)) return INT2FIX(0);  /* then int_pow overflow */`
    | some .float => some 0
    -- `int_pow` of a natural power never answers a Rational; `none` is its fuel running out
    | some .rational => none
    | none => none

/-- The Integer path of `rb_int_round`: `n = num - num % f`, and `n + f` past the midpoint
`h = f / 2`, or on it where `int_half_p` says. -/
def rbIntRoundInteger (mode : RoundingMode) (num f : ℤ) : ℤ :=
  let h := f.fdiv 2
  let r := rbIntModulo num f
  let n := num - r
  -- `rb_int_cmp(r, h)` positive, or zero and `int_half_p`
  if h < r ∨ r = h ∧ intHalfP mode num n f = true then n + f else n

/-- `rb_int_round(num, ndigits, mode)`. -/
def rbIntRound (bld : Build) (fuel : ℕ) (num ndigits : ℤ) (mode : RoundingMode) : Option ℤ :=
  intRoundWith bld fuel num ndigits
    (fun x y => if x < 0 then -intRoundCall mode (-x) y else intRoundCall mode x y)
    (rbIntRoundInteger mode)

/-- `rb_int_floor(num, ndigits)`. -/
def rbIntFloor (bld : Build) (fuel : ℕ) (num ndigits : ℤ) : Option ℤ :=
  intRoundWith bld fuel num ndigits
    -- `if (neg) x = -x + y - 1; x = x / y * y; if (neg) x = -x;`
    (fun x y => if x < 0 then -((-x + y - 1).tdiv y * y) else x.tdiv y * y)
    (fun num f => num - rbIntModulo num f)

/-- `rb_int_ceil(num, ndigits)`. -/
def rbIntCeil (bld : Build) (fuel : ℕ) (num ndigits : ℤ) : Option ℤ :=
  intRoundWith bld fuel num ndigits
    -- `if (neg) x = -x; else x += y - 1; x = (x / y) * y; if (neg) x = -x;`
    (fun x y => if x < 0 then -((-x).tdiv y * y) else (x + y - 1).tdiv y * y)
    (fun num f => num + (f - rbIntModulo num f))

/-- `rb_int_truncate(num, ndigits)`. -/
def rbIntTruncate (bld : Build) (fuel : ℕ) (num ndigits : ℤ) : Option ℤ :=
  intRoundWith bld fuel num ndigits
    (fun x y => if x < 0 then -((-x).tdiv y * y) else x.tdiv y * y)
    (fun num f =>
      let m := rbIntModulo num f
      if num < 0 then num + (f - m) else num - m)

/-! ## What the four functions are for -/

/-- `m` is the greatest multiple of `f` at or below `num`. -/
def IsFloorMultiple (f num m : ℤ) : Prop := f ∣ m ∧ m ≤ num ∧ num < m + f

/-- `m` is the least multiple of `f` at or above `num`. -/
def IsCeilMultiple (f num m : ℤ) : Prop := f ∣ m ∧ num ≤ m ∧ m < num + f

/-- `m` is the multiple of `f` next to `num` towards zero. -/
def IsTruncMultiple (f num m : ℤ) : Prop :=
  (0 ≤ num → IsFloorMultiple f num m) ∧ (num < 0 → IsCeilMultiple f num m)

/-- How `mode` breaks a tie between the two multiples of `f` around `num`: `m` is the one away
from zero, the one towards zero, or the even multiple. -/
def TieRule : RoundingMode → ℤ → ℤ → ℤ → Prop
  | .halfUp, _, num, m => |num| < |m|
  | .halfDown, _, num, m => |m| < |num|
  | .halfEven, f, _, m => Even (m / f)

/-- `m` is the multiple of `f` nearest `num`, a tie broken by `mode`. -/
def IsNearestMultiple (mode : RoundingMode) (f num m : ℤ) : Prop :=
  f ∣ m ∧ 2 * |num - m| ≤ f ∧ (2 * |num - m| = f → TieRule mode f num m)

/-- Every other multiple of `f` is at least as far from `num` as a nearest one. -/
theorem IsNearestMultiple.le_of_dvd {mode : RoundingMode} {f num m k : ℤ}
    (h : IsNearestMultiple mode f num m) (hk : f ∣ k) : |num - m| ≤ |num - k| := by
  obtain ⟨hm, hle, -⟩ := h
  by_cases hmk : m = k
  · rw [hmk]
  -- two different multiples of `f` are at least `f` apart
  have hf : f ≤ |m - k| := Int.le_of_dvd (abs_pos.mpr (sub_ne_zero.mpr hmk))
    ((dvd_abs _ _).mpr (dvd_sub hm hk))
  have ht := abs_sub_le m num k
  rw [abs_sub_comm m num] at ht
  linarith

/-! ## The zero estimate -/

theorem log256Ten_bounds :
    415241 / 1000000 - 415241 / 1000000 / 2 ^ 52 ≤ log256Ten ∧
      log256Ten ≤ 415241 / 1000000 + 415241 / 1000000 / 2 ^ 52 :=
  Binary64.round_bounds_of_pos (by norm_num)

/-- **The estimate, bounded above**: where it holds, `bytes` is below the real value with each
rounding raising by at most `2 ^ -52`. -/
theorem intRoundZeroP_lt {num nd : ℤ} (h : intRoundZeroP num nd = true) :
    (intRoundBytes num : ℚ) <
      (415241 / 1000000 * (1 + 1 / 2 ^ 52) ^ 2 * -nd - 1 / 8) * (1 + 1 / 2 ^ 52) := by
  rw [intRoundZeroP, decide_eq_true_iff] at h
  have hb : (0 : ℚ) ≤ intRoundBytes num := Nat.cast_nonneg _
  obtain ⟨hc1, hc2⟩ := log256Ten_bounds
  -- the product is positive, else every rounding stays at or below 0
  have hp : 0 < -log256Ten * nd := by
    by_contra hle
    have h1 := Binary64.round_nonpos (not_lt.mp hle)
    have h2 := Binary64.round_nonpos
      (show Binary64.round (-log256Ten * nd) - 1 / 8 ≤ 0 by linarith)
    linarith
  obtain ⟨-, hp2⟩ := Binary64.round_bounds_of_pos hp
  have hq : 0 < Binary64.round (-log256Ten * nd) - 1 / 8 := by
    by_contra hle
    have := Binary64.round_nonpos (not_lt.mp hle)
    linarith
  obtain ⟨-, hv2⟩ := Binary64.round_bounds_of_pos hq
  have hnd : 0 < -(nd : ℚ) := by nlinarith
  have hcn : -log256Ten * nd ≤ (415241 / 1000000 + 415241 / 1000000 / 2 ^ 52) * -nd := by
    nlinarith
  linarith

/-- **The estimate, bounded below**: it holds where `bytes` is below the real value with each
rounding lowering by at most `2 ^ -52`. -/
theorem intRoundZeroP_of_lt {num nd : ℤ}
    (h : (intRoundBytes num : ℚ) <
      (415241 / 1000000 * (1 - 1 / 2 ^ 52) ^ 2 * -nd - 1 / 8) * (1 - 1 / 2 ^ 52)) :
    intRoundZeroP num nd = true := by
  rw [intRoundZeroP, decide_eq_true_iff]
  have hb : (0 : ℚ) ≤ intRoundBytes num := Nat.cast_nonneg _
  obtain ⟨hc1, hc2⟩ := log256Ten_bounds
  have hnd : 0 < -(nd : ℚ) := by nlinarith
  have hcn : (415241 / 1000000 - 415241 / 1000000 / 2 ^ 52) * -nd ≤ -log256Ten * nd := by
    nlinarith
  have hp : 0 < -log256Ten * nd := by nlinarith
  obtain ⟨hp1, -⟩ := Binary64.round_bounds_of_pos hp
  have hq : 0 < Binary64.round (-log256Ten * nd) - 1 / 8 := by nlinarith
  obtain ⟨hv1, -⟩ := Binary64.round_bounds_of_pos hq
  nlinarith

/-- The estimate fails where `bytes` is at least the real value with each rounding raising by
`2 ^ -52`. -/
theorem intRoundZeroP_eq_false {num nd : ℤ}
    (h : (415241 / 1000000 * (1 + 1 / 2 ^ 52) ^ 2 * -nd - 1 / 8) * (1 + 1 / 2 ^ 52) ≤
      (intRoundBytes num : ℚ)) :
    intRoundZeroP num nd = false := by
  cases hz : intRoundZeroP num nd
  · rfl
  · exact absurd (intRoundZeroP_lt hz) (not_lt.mpr h)

/-- `|num|` has at most `bytes` bytes. -/
theorem natAbs_lt_intRoundBytes (num : ℤ) : num.natAbs < 2 ^ (8 * intRoundBytes num) := by
  unfold intRoundBytes
  split_ifs with hfix
  · have := fixableP_iff.mp hfix
    omega
  · calc num.natAbs < 2 ^ Nat.size num.natAbs := Nat.lt_size_self _
      _ ≤ 2 ^ (8 * absintNumBytes num) :=
        Nat.pow_le_pow_right (by norm_num) (by unfold absintNumBytes; omega)

/-- `13301 / 4004` is below `log₂ 10`; the powers are split so that no exponent is large. -/
theorem two_pow_le_ten_pow : 2 ^ 13301 ≤ 10 ^ 4004 := by
  rw [show 13301 = 256 * 51 + 245 by norm_num, pow_add, pow_mul, show 4004 = 77 * 52 by norm_num,
    pow_mul]
  norm_num

/-- `2 ^ B < 10 ^ N` from `B / N < a / b` and `2 ^ a ≤ 10 ^ b`. -/
theorem two_pow_lt_ten_pow {a b B N : ℕ} (hb : 0 < b) (hab : 2 ^ a ≤ 10 ^ b) (h : b * B < a * N) :
    2 ^ B < 10 ^ N := by
  have h1 : (2 ^ B) ^ b < (10 ^ N) ^ b :=
    calc (2 ^ B) ^ b = 2 ^ (b * B) := by rw [← pow_mul, mul_comm]
      _ < 2 ^ (a * N) := Nat.pow_lt_pow_right (by norm_num) h
      _ = (2 ^ a) ^ N := pow_mul _ _ _
      _ ≤ (10 ^ b) ^ N := Nat.pow_le_pow_left hab _
      _ = (10 ^ N) ^ b := pow_right_comm _ _ _
  exact (Nat.pow_lt_pow_iff_left hb.ne').mp h1

/-- **`int_round_zero_p` is sound**: `0.415241 < log_256(10)` leaves more room than the
roundings take, so where it holds `|num| < f / 2`. -/
theorem intRoundZeroP_sound {num nd : ℤ} (h : intRoundZeroP num nd = true) :
    2 * |num| < 10 ^ (-nd).toNat := by
  have hlt := intRoundZeroP_lt h
  have hb : (0 : ℚ) ≤ intRoundBytes num := Nat.cast_nonneg _
  have hnd : (0 : ℚ) < -nd := by nlinarith
  -- `8 * bytes + 1` bits are fewer than `-nd * log₂ 10`
  have hbits : 4004 * (8 * intRoundBytes num + 1) < 13301 * (-nd).toNat := by
    have hcast : (((-nd).toNat : ℕ) : ℚ) = -nd := by
      rw [show ((-nd).toNat : ℚ) = (((-nd).toNat : ℤ) : ℚ) by norm_cast, Int.toNat_of_nonneg (by
        exact_mod_cast hnd.le)]
      push_cast
      ring
    have : (4004 * (8 * intRoundBytes num + 1) : ℚ) < 13301 * ((-nd).toNat : ℕ) := by
      rw [hcast]
      linarith
    exact_mod_cast this
  have hpow : 2 ^ (8 * intRoundBytes num + 1) < 10 ^ (-nd).toNat :=
    two_pow_lt_ten_pow (by norm_num) two_pow_le_ten_pow hbits
  have habs := natAbs_lt_intRoundBytes num
  have : 2 * num.natAbs < 10 ^ (-nd).toNat := by
    rw [pow_succ] at hpow
    omega
  rw [Int.abs_eq_natAbs]
  exact_mod_cast this

/-- From 20 digits on the estimate holds for every Fixnum. -/
theorem intRoundZeroP_of_fixnum {num nd : ℤ} (hfix : fixableP num = true) (hnd : nd ≤ -20) :
    intRoundZeroP num nd = true := by
  apply intRoundZeroP_of_lt
  rw [intRoundBytes, if_pos hfix]
  have : (20 : ℚ) ≤ -nd := by exact_mod_cast (show (20 : ℤ) ≤ -nd by omega)
  push_cast
  nlinarith

/-! ## The multiples -/

theorem isCeilMultiple_neg {f num m : ℤ} :
    IsCeilMultiple f (-num) (-m) ↔ IsFloorMultiple f num m := by
  unfold IsCeilMultiple IsFloorMultiple
  rw [Int.dvd_neg]
  constructor <;> rintro ⟨h1, h2, h3⟩ <;> exact ⟨h1, by omega, by omega⟩

theorem isFloorMultiple_sub_emod {f : ℤ} (hf : 0 < f) (num : ℤ) :
    IsFloorMultiple f num (num - num % f) := by
  have h0 := Int.emod_nonneg num hf.ne'
  have h1 := Int.emod_lt_of_pos num hf
  refine ⟨⟨num / f, ?_⟩, by omega, by omega⟩
  rw [Int.emod_def]
  ring

/-- Adding `f` less the remainder reaches the next multiple, unless `num` is one already. -/
theorem isCeilMultiple_add_sub_emod {f num : ℤ} (hf : 0 < f) (hd : ¬f ∣ num) :
    IsCeilMultiple f num (num + (f - num % f)) := by
  have h0 : 0 < num % f := lt_of_le_of_ne (Int.emod_nonneg num hf.ne')
    (fun h => hd (Int.dvd_iff_emod_eq_zero.mpr h.symm))
  have h1 := Int.emod_lt_of_pos num hf
  refine ⟨⟨num / f + 1, ?_⟩, by omega, by omega⟩
  rw [Int.emod_def]
  ring

/-- C's `a / y * y` on a non-negative `a`. -/
theorem tdiv_mul_of_nonneg {a : ℤ} (ha : 0 ≤ a) (y : ℤ) : a.tdiv y * y = a - a % y := by
  rw [Int.tdiv_eq_ediv_of_nonneg ha, Int.emod_def]
  ring

theorem isFloorMultiple_tdiv {y a : ℤ} (hy : 0 < y) (ha : 0 ≤ a) :
    IsFloorMultiple y a (a.tdiv y * y) := by
  rw [tdiv_mul_of_nonneg ha]
  exact isFloorMultiple_sub_emod hy a

/-- C's `(a + y - 1) / y * y` rounds a non-negative `a` up. -/
theorem isCeilMultiple_tdiv {y a : ℤ} (hy : 0 < y) (ha : 0 ≤ a) :
    IsCeilMultiple y a ((a + y - 1).tdiv y * y) := by
  rw [tdiv_mul_of_nonneg (by omega)]
  obtain ⟨hd, h1, h2⟩ := isFloorMultiple_sub_emod hy (a + y - 1)
  exact ⟨hd, by omega, by omega⟩

/-- The nearest-multiple conditions without `|·|`. -/
theorem IsNearestMultiple.of_bounds {mode : RoundingMode} {f num m : ℤ} (hd : f ∣ m)
    (h1 : 2 * (num - m) ≤ f) (h2 : 2 * (m - num) ≤ f)
    (htie : 2 * (num - m) = f ∨ 2 * (m - num) = f → TieRule mode f num m) :
    IsNearestMultiple mode f num m := by
  refine ⟨hd, ?_, fun h => htie ?_⟩
  · rcases abs_cases (num - m) with ⟨ha, -⟩ | ⟨ha, -⟩ <;> rw [ha] <;> omega
  · rcases abs_cases (num - m) with ⟨ha, -⟩ | ⟨ha, -⟩ <;> rw [ha] at h <;> omega

theorem tieRule_halfUp {f num m : ℤ} (h : 0 ≤ num ∧ num < m ∨ m < num ∧ num ≤ 0) :
    TieRule .halfUp f num m := by
  simp only [TieRule]
  rcases h with ⟨h1, h2⟩ | ⟨h1, h2⟩
  · rw [abs_of_nonneg h1, abs_of_nonneg (by omega)]
    exact h2
  · rw [abs_of_nonpos h2, abs_of_nonpos (by omega)]
    omega

theorem tieRule_halfDown {f num m : ℤ} (h : 0 ≤ m ∧ m < num ∨ num < m ∧ m ≤ 0) :
    TieRule .halfDown f num m := by
  simp only [TieRule]
  rcases h with ⟨h1, h2⟩ | ⟨h1, h2⟩
  · rw [abs_of_nonneg h1, abs_of_nonneg (by omega)]
    exact h2
  · rw [abs_of_nonpos h2, abs_of_nonpos (by omega)]
    omega

theorem tieRule_halfEven {f q : ℤ} (hf : f ≠ 0) (hq : Even q) (num : ℤ) :
    TieRule .halfEven f num (q * f) := by
  simp only [TieRule]
  rw [Int.mul_ediv_cancel q hf]
  exact hq

/-- Rounding commutes with negation: the Fixnum paths round `|num|` and put the sign back. -/
theorem IsNearestMultiple.neg {mode : RoundingMode} {f num m : ℤ}
    (h : IsNearestMultiple mode f num m) : IsNearestMultiple mode f (-num) (-m) := by
  obtain ⟨hd, hle, htie⟩ := h
  have habs : |-num - -m| = |num - m| := by
    rw [← abs_neg]
    ring_nf
  refine ⟨(Int.dvd_neg).mpr hd, by rwa [habs], fun h2 => ?_⟩
  rw [habs] at h2
  have ht := htie h2
  cases mode with
  | halfUp => simp only [TieRule, abs_neg] at ht ⊢; exact ht
  | halfDown => simp only [TieRule, abs_neg] at ht ⊢; exact ht
  | halfEven => simp only [TieRule, Int.neg_ediv_of_dvd hd] at ht ⊢; exact ht.neg

/-! ## The Fixnum paths -/

/-- **`int_round_half_up`** rounds a non-negative `x` to the nearest multiple of `y`, a tie up. -/
theorem isNearestMultiple_intRoundHalfUp {x y : ℤ} (hx : 0 ≤ x) (hy : 0 < y) :
    IsNearestMultiple .halfUp y x (intRoundHalfUp x y) := by
  unfold intRoundHalfUp
  rw [Int.tdiv_eq_ediv_of_nonneg hy.le, tdiv_mul_of_nonneg (by omega)]
  have h0 := Int.emod_nonneg (x + y / 2) hy.ne'
  have h1 := Int.emod_lt_of_pos (x + y / 2) hy
  obtain ⟨hd, -, -⟩ := isFloorMultiple_sub_emod hy (x + y / 2)
  exact IsNearestMultiple.of_bounds hd (by omega) (by omega)
    (fun h => tieRule_halfUp (.inl ⟨hx, by omega⟩))

/-- **`int_round_half_down`** rounds a non-negative `x` to the nearest multiple of an even `y`, a
tie down. -/
theorem isNearestMultiple_intRoundHalfDown {x y : ℤ} (hx : 0 ≤ x) (hy : 0 < y) (he : 2 ∣ y) :
    IsNearestMultiple .halfDown y x (intRoundHalfDown x y) := by
  have hy2 : y / 2 * 2 = y := Int.ediv_mul_cancel he
  unfold intRoundHalfDown
  rw [Int.tdiv_eq_ediv_of_nonneg hy.le, tdiv_mul_of_nonneg (by omega)]
  have h0 := Int.emod_nonneg (x + y / 2 - 1) hy.ne'
  have h1 := Int.emod_lt_of_pos (x + y / 2 - 1) hy
  obtain ⟨hd, -, -⟩ := isFloorMultiple_sub_emod hy (x + y / 2 - 1)
  -- the multiple is `y` times a quotient of a non-negative number
  have hm0 : 0 ≤ x + y / 2 - 1 - (x + y / 2 - 1) % y := by
    rw [Int.emod_def, sub_sub_cancel]
    exact mul_nonneg hy.le (Int.ediv_nonneg (by omega) hy.le)
  exact IsNearestMultiple.of_bounds hd (by omega) (by omega)
    (fun h => tieRule_halfDown (.inl ⟨hm0, by omega⟩))

/-- **`int_round_half_even`** rounds a non-negative `x` to the nearest multiple of `y`, a tie to
the even multiple: on a tie `z * y` is the upper neighbour, and clearing the low bit of `z` keeps
it or steps down to the lower one. -/
theorem isNearestMultiple_intRoundHalfEven {x y : ℤ} (hx : 0 ≤ x) (hy : 0 < y) :
    IsNearestMultiple .halfEven y x (intRoundHalfEven x y) := by
  unfold intRoundHalfEven
  rw [Int.tdiv_eq_ediv_of_nonneg hy.le, Int.tdiv_eq_ediv_of_nonneg (by omega)]
  have h0 := Int.emod_nonneg (x + y / 2) hy.ne'
  have h1 := Int.emod_lt_of_pos (x + y / 2) hy
  have hz : (x + y / 2) / y * y = x + y / 2 - (x + y / 2) % y := by
    rw [Int.emod_def]
    ring
  generalize (x + y / 2) / y = z at hz ⊢
  generalize (x + y / 2) % y = r at hz h0 h1
  dsimp only
  split_ifs with ht
  · -- a tie
    rcases Int.emod_two_eq z with hz2 | hz2 <;> rw [hz2]
    · rw [sub_zero]
      exact IsNearestMultiple.of_bounds ⟨z, mul_comm z y⟩ (by omega) (by omega)
        (fun _ => tieRule_halfEven hy.ne' ⟨z / 2, by omega⟩ x)
    · have hm : (z - 1) * y = z * y - y := by ring
      refine IsNearestMultiple.of_bounds ⟨z - 1, mul_comm _ _⟩ (by omega) (by omega)
        (fun _ => tieRule_halfEven hy.ne' ⟨z / 2, by omega⟩ x)
  · exact IsNearestMultiple.of_bounds ⟨z, mul_comm z y⟩ (by omega) (by omega)
      (fun h => absurd (by omega) ht)

/-- `ROUND_CALL(mode, int_round, (x, y))` rounds a non-negative `x` to the nearest multiple of an
even `y`. -/
theorem isNearestMultiple_intRoundCall (mode : RoundingMode) {x y : ℤ} (hx : 0 ≤ x) (hy : 0 < y)
    (he : 2 ∣ y) : IsNearestMultiple mode y x (intRoundCall mode x y) := by
  cases mode with
  | halfUp => exact isNearestMultiple_intRoundHalfUp hx hy
  | halfEven => exact isNearestMultiple_intRoundHalfEven hx hy
  | halfDown => exact isNearestMultiple_intRoundHalfDown hx hy he

/-! ## The Integer paths -/

theorem rbIntModulo_eq {f : ℤ} (hf : 0 < f) (num : ℤ) : rbIntModulo num f = num % f := by
  rw [rbIntModulo, Int.fmod_eq_emod_of_nonneg _ hf.le]

/-- A multiple of `f` below 0 is at most `-f`. -/
theorem mul_le_neg_of_neg {f q : ℤ} (hf : 0 < f) (hq : f * q < 0) : f * q ≤ -f := by
  have : q < 0 := by
    by_contra h
    exact absurd (mul_nonneg hf.le (not_lt.mp h)) (not_le.mpr hq)
  nlinarith

/-- On the midpoint, `rb_int_odd_p(n / f)` steps up from an odd multiple to an even one. -/
theorem isNearestMultiple_intHalfP_even {f q h : ℤ} (hf : 0 < f) (hh : h * 2 = f) :
    IsNearestMultiple .halfEven f (f * q + h)
      (if intHalfP .halfEven (f * q + h) (f * q) f = true then f * q + f else f * q) := by
  simp only [intHalfP, decide_eq_true_eq, Int.fdiv_eq_ediv_of_nonneg _ hf.le,
    Int.mul_ediv_cancel_left q hf.ne']
  split_ifs with hodd
  · exact IsNearestMultiple.of_bounds ⟨q + 1, by ring⟩ (by omega) (by omega)
      (fun _ => by
        rw [show f * q + f = (q + 1) * f by ring]
        exact tieRule_halfEven hf.ne' ⟨q / 2 + 1, by omega⟩ _)
  · exact IsNearestMultiple.of_bounds ⟨q, rfl⟩ (by omega) (by omega)
      (fun _ => by
        rw [mul_comm]
        exact tieRule_halfEven hf.ne' ⟨q / 2, by omega⟩ _)

/-- **On the midpoint** `f * q + f / 2`, `int_half_p` picks the multiple the mode asks for. -/
theorem isNearestMultiple_intHalfP (mode : RoundingMode) {f q h : ℤ} (hf : 0 < f)
    (hh : h * 2 = f) :
    IsNearestMultiple mode f (f * q + h)
      (if intHalfP mode (f * q + h) (f * q) f = true then f * q + f else f * q) := by
  have hup : f ∣ f * q + f := ⟨q + 1, by ring⟩
  have hdn : f ∣ f * q := ⟨q, rfl⟩
  -- the sign of the midpoint is the sign of the multiple below it
  rcases lt_or_ge (f * q) 0 with hq | hq
  · have hq' := mul_le_neg_of_neg hf hq
    cases mode with
    | halfUp =>
      simp only [intHalfP, decide_eq_true_eq]
      rw [if_neg (by omega)]
      exact IsNearestMultiple.of_bounds hdn (by omega) (by omega)
        (fun _ => tieRule_halfUp (.inr ⟨by omega, by omega⟩))
    | halfDown =>
      simp only [intHalfP, decide_eq_true_eq]
      rw [if_pos (by omega)]
      exact IsNearestMultiple.of_bounds hup (by omega) (by omega)
        (fun _ => tieRule_halfDown (.inr ⟨by omega, by omega⟩))
    | halfEven => exact isNearestMultiple_intHalfP_even hf hh
  · cases mode with
    | halfUp =>
      simp only [intHalfP, decide_eq_true_eq]
      rw [if_pos (by omega)]
      exact IsNearestMultiple.of_bounds hup (by omega) (by omega)
        (fun _ => tieRule_halfUp (.inl ⟨by omega, by omega⟩))
    | halfDown =>
      simp only [intHalfP, decide_eq_true_eq]
      rw [if_neg (by omega)]
      exact IsNearestMultiple.of_bounds hdn (by omega) (by omega)
        (fun _ => tieRule_halfDown (.inl ⟨by omega, by omega⟩))
    | halfEven => exact isNearestMultiple_intHalfP_even hf hh

/-- **The Integer path of `rb_int_round`** rounds `num` to the nearest multiple of an even `f`:
`num = f * q + r`, and `r` is compared with `f / 2`. -/
theorem isNearestMultiple_rbIntRoundInteger (mode : RoundingMode) {f : ℤ} (hf : 0 < f)
    (he : 2 ∣ f) (num : ℤ) : IsNearestMultiple mode f num (rbIntRoundInteger mode num f) := by
  have hh : f.fdiv 2 * 2 = f := by
    rw [Int.fdiv_eq_ediv_of_nonneg f (by norm_num)]
    exact Int.ediv_mul_cancel he
  have hr0 := Int.emod_nonneg num hf.ne'
  have hr1 := Int.emod_lt_of_pos num hf
  have hnum : num = f * (num / f) + num % f := by
    rw [Int.emod_def]
    ring
  unfold rbIntRoundInteger
  rw [rbIntModulo_eq hf]
  dsimp only
  rw [show num - num % f = f * (num / f) by omega]
  generalize num / f = q at hnum ⊢
  generalize num % f = r at hnum hr0 hr1 ⊢
  generalize f.fdiv 2 = h at hh ⊢
  subst hnum
  by_cases hup : h < r
  · -- past the midpoint: the multiple above
    rw [if_pos (.inl hup)]
    exact IsNearestMultiple.of_bounds ⟨q + 1, by ring⟩ (by omega) (by omega) (fun _ => by omega)
  by_cases hmid : r = h
  · subst hmid
    simp only [lt_irrefl, false_or, true_and]
    exact isNearestMultiple_intHalfP mode hf hh
  · -- before the midpoint: the multiple below
    rw [if_neg (fun h' => h'.elim hup (fun h2 => hmid h2.1))]
    exact IsNearestMultiple.of_bounds ⟨q, rfl⟩ (by omega) (by omega) (fun _ => by omega)

/-! ## The four functions -/

/-- **`int_pow(10, N)`** is the Integer `10 ^ N` within `N + 6` turns for `N ≤ 2 ^ 22`: no factor
of `10 ^ N` passes the size limit of `rb_big_pow`. -/
theorem intPow_ten (bld : Build) {N : ℕ} (hN : N ≤ 2 ^ 22) :
    ∀ fuel, N + 6 ≤ fuel → intPow bld fuel 10 N = some (.int (10 ^ N)) := by
  obtain ⟨r, hr, hans⟩ := intPow_spec bld (x := 10) (by decide) (y := N) (by omega)
    (fun _ => .inr (by norm_num))
  rcases hans with rfl | ⟨x', y', hx', hy', hdvd, hb, -⟩
  · exact hr
  · have hle : x' ^ y' ≤ 2 ^ (4 * N) :=
      calc x' ^ y' ≤ 10 ^ N := Int.le_of_dvd (by positivity) hdvd
        _ ≤ 16 ^ N := pow_le_pow_left₀ (by norm_num) (by norm_num) N
        _ = 2 ^ (4 * N) := by rw [pow_mul]; norm_num
    exact absurd hb (rbBigPow_ne_float hx' hy' hle (by omega))

/-- **The shared frame**, with `int_pow` given enough fuel: 0 where the estimate holds, else the
Fixnum or the Integer path on `f = 10 ^ -nd`. -/
theorem intRoundWith_eq (bld : Build) (num : ℤ) {nd : ℤ} (hN : -nd ≤ 2 ^ 22)
    (fix gen : ℤ → ℤ → ℤ) (fuel : ℕ) (hfuel : (-nd).toNat + 6 ≤ fuel) :
    intRoundWith bld fuel num nd fix gen =
      some (if intRoundZeroP num nd = true then 0
        else if (fixableP num && fixableP (10 ^ (-nd).toNat)) = true then fix num (10 ^ (-nd).toNat)
        else gen num (10 ^ (-nd).toNat)) := by
  unfold intRoundWith
  by_cases hz : intRoundZeroP num nd = true
  · rw [if_pos hz, if_pos hz]
  · rw [if_neg hz, if_neg hz, intPow_ten bld (by omega) fuel hfuel]

/-- Where the estimate holds, `|num| < f / 2`. -/
theorem abs_lt_of_intRoundZeroP {num nd : ℤ} (hz : intRoundZeroP num nd = true) :
    2 * num < 10 ^ (-nd).toNat ∧ -(2 * num) < 10 ^ (-nd).toNat := by
  have := intRoundZeroP_sound hz
  have h1 := le_abs_self num
  have h2 := neg_abs_le num
  omega

/-- **`rb_int_round` rounds to the nearest multiple** of `f = 10 ^ -nd`, a tie broken by the
mode, for every `num` and every `nd < 0` up to `2 ^ 22` digits. -/
theorem rbIntRound_spec (bld : Build) (num : ℤ) {nd : ℤ} (hnd : nd < 0) (hN : -nd ≤ 2 ^ 22)
    (mode : RoundingMode) :
    ∃ m, (∀ fuel, (-nd).toNat + 6 ≤ fuel → rbIntRound bld fuel num nd mode = some m) ∧
      IsNearestMultiple mode (10 ^ (-nd).toNat) num m := by
  refine ⟨_, fun fuel hf => intRoundWith_eq bld num hN _ _ fuel hf, ?_⟩
  have hf : (0 : ℤ) < 10 ^ (-nd).toNat := by positivity
  have he : (2 : ℤ) ∣ 10 ^ (-nd).toNat := dvd_pow ⟨5, by norm_num⟩ (by omega)
  by_cases hz : intRoundZeroP num nd = true
  · -- the estimate: 0 is the nearest multiple
    rw [if_pos hz]
    have := abs_lt_of_intRoundZeroP hz
    exact IsNearestMultiple.of_bounds (dvd_zero _) (by omega) (by omega) (fun _ => by omega)
  rw [if_neg hz]
  by_cases hfix : (fixableP num && fixableP (10 ^ (-nd).toNat)) = true
  · -- two Fixnums: round `|num|` and put the sign back
    rw [if_pos hfix]
    by_cases hneg : num < 0
    · rw [if_pos hneg]
      have := (isNearestMultiple_intRoundCall mode (x := -num) (by omega) hf he).neg
      rwa [neg_neg] at this
    · rw [if_neg hneg]
      exact isNearestMultiple_intRoundCall mode (by omega) hf he
  · rw [if_neg hfix]
    exact isNearestMultiple_rbIntRoundInteger mode hf he num

/-- **What `rb_int_floor` returns**: the greatest multiple of `f = 10 ^ -nd` at or below `num`,
but 0 where the estimate holds for a negative `num`. -/
theorem rbIntFloor_spec (bld : Build) (num : ℤ) {nd : ℤ} (hN : -nd ≤ 2 ^ 22) :
    ∃ m, (∀ fuel, (-nd).toNat + 6 ≤ fuel → rbIntFloor bld fuel num nd = some m) ∧
      if intRoundZeroP num nd = true ∧ num < 0 then m = 0
      else IsFloorMultiple (10 ^ (-nd).toNat) num m := by
  refine ⟨_, fun fuel hf => intRoundWith_eq bld num hN _ _ fuel hf, ?_⟩
  have hf : (0 : ℤ) < 10 ^ (-nd).toNat := by positivity
  by_cases hz : intRoundZeroP num nd = true
  · rw [if_pos hz]
    have := abs_lt_of_intRoundZeroP hz
    split_ifs with hneg
    · rfl
    · have : 0 ≤ num := not_lt.mp (fun h => hneg ⟨hz, h⟩)
      exact ⟨dvd_zero _, by omega, by omega⟩
  rw [if_neg hz, if_neg (fun h => hz h.1)]
  split_ifs with hfix hneg
  · -- `-x + y - 1` rounds `|num|` up
    rw [← isCeilMultiple_neg, neg_neg]
    exact isCeilMultiple_tdiv hf (by omega)
  · exact isFloorMultiple_tdiv hf (by omega)
  · rw [rbIntModulo_eq hf]
    exact isFloorMultiple_sub_emod hf num

/-- **What `rb_int_ceil` returns**: the least multiple of `f = 10 ^ -nd` at or above `num`, but 0
where the estimate holds for a positive `num`, and `num + f` where the Integer path meets a
multiple of `f`. -/
theorem rbIntCeil_spec (bld : Build) (num : ℤ) {nd : ℤ} (hN : -nd ≤ 2 ^ 22) :
    ∃ m, (∀ fuel, (-nd).toNat + 6 ≤ fuel → rbIntCeil bld fuel num nd = some m) ∧
      if intRoundZeroP num nd = true ∧ 0 < num then m = 0
      else if intRoundZeroP num nd = false ∧
          (fixableP num && fixableP (10 ^ (-nd).toNat)) = false ∧ 10 ^ (-nd).toNat ∣ num then
        m = num + 10 ^ (-nd).toNat
      else IsCeilMultiple (10 ^ (-nd).toNat) num m := by
  refine ⟨_, fun fuel hf => intRoundWith_eq bld num hN _ _ fuel hf, ?_⟩
  have hf : (0 : ℤ) < 10 ^ (-nd).toNat := by positivity
  by_cases hz : intRoundZeroP num nd = true
  · rw [if_pos hz]
    have := abs_lt_of_intRoundZeroP hz
    split_ifs with hpos h2
    · rfl
    · exact absurd hz (by rw [h2.1]; decide)
    · have : num ≤ 0 := not_lt.mp (fun h => hpos ⟨hz, h⟩)
      exact ⟨dvd_zero _, by omega, by omega⟩
  rw [Bool.not_eq_true] at hz
  simp only [hz, Bool.false_eq_true, false_and, if_false, true_and]
  by_cases hfix : (fixableP num && fixableP (10 ^ (-nd).toNat)) = true
  · rw [if_pos hfix, if_neg (by rw [hfix]; simp)]
    split_ifs with hneg
    · -- `|num|` rounded down, negated
      have := isCeilMultiple_neg.mpr (isFloorMultiple_tdiv hf (show 0 ≤ -num by omega))
      rwa [neg_neg] at this
    · exact isCeilMultiple_tdiv hf (by omega)
  · rw [Bool.not_eq_true] at hfix
    rw [if_neg (show ¬(fixableP num && fixableP (10 ^ (-nd).toNat)) = true by rw [hfix]; decide),
      rbIntModulo_eq hf]
    by_cases hd : 10 ^ (-nd).toNat ∣ num
    · -- a multiple: `num % f = 0`, and `f` is added
      rw [if_pos ⟨hfix, hd⟩, Int.emod_eq_zero_of_dvd hd, sub_zero]
    · rw [if_neg (fun h => hd h.2)]
      exact isCeilMultiple_add_sub_emod hf hd

/-- **What `rb_int_truncate` returns**: the multiple of `f = 10 ^ -nd` next to `num` towards zero,
but `num + f` where the Integer path meets a negative multiple of `f`. -/
theorem rbIntTruncate_spec (bld : Build) (num : ℤ) {nd : ℤ} (hN : -nd ≤ 2 ^ 22) :
    ∃ m, (∀ fuel, (-nd).toNat + 6 ≤ fuel → rbIntTruncate bld fuel num nd = some m) ∧
      if intRoundZeroP num nd = false ∧
          (fixableP num && fixableP (10 ^ (-nd).toNat)) = false ∧ num < 0 ∧
          10 ^ (-nd).toNat ∣ num then
        m = num + 10 ^ (-nd).toNat
      else IsTruncMultiple (10 ^ (-nd).toNat) num m := by
  refine ⟨_, fun fuel hf => intRoundWith_eq bld num hN _ _ fuel hf, ?_⟩
  have hf : (0 : ℤ) < 10 ^ (-nd).toNat := by positivity
  by_cases hz : intRoundZeroP num nd = true
  · rw [if_pos hz, if_neg (fun h => absurd hz (by rw [h.1]; decide))]
    have := abs_lt_of_intRoundZeroP hz
    exact ⟨fun _ => ⟨dvd_zero _, by omega, by omega⟩, fun _ => ⟨dvd_zero _, by omega, by omega⟩⟩
  rw [Bool.not_eq_true] at hz
  rw [if_neg (show ¬intRoundZeroP num nd = true by rw [hz]; decide)]
  by_cases hfix : (fixableP num && fixableP (10 ^ (-nd).toNat)) = true
  · rw [if_pos hfix, if_neg (fun h => absurd hfix (by rw [h.2.1]; decide))]
    refine ⟨fun hpos => ?_, fun hneg => ?_⟩
    · rw [if_neg (not_lt.mpr hpos)]
      exact isFloorMultiple_tdiv hf hpos
    · -- `|num|` rounded down, negated
      rw [if_pos hneg]
      have := isCeilMultiple_neg.mpr (isFloorMultiple_tdiv hf (show 0 ≤ -num by omega))
      rwa [neg_neg] at this
  · rw [Bool.not_eq_true] at hfix
    rw [if_neg (show ¬(fixableP num && fixableP (10 ^ (-nd).toNat)) = true by rw [hfix]; decide)]
    dsimp only
    rw [rbIntModulo_eq hf]
    by_cases hneg : num < 0
    · rw [if_pos hneg]
      by_cases hd : 10 ^ (-nd).toNat ∣ num
      · -- a negative multiple: `num % f = 0`, and `f` is added
        rw [if_pos ⟨hz, hfix, hneg, hd⟩, Int.emod_eq_zero_of_dvd hd, sub_zero]
      · rw [if_neg (fun h => hd h.2.2.2)]
        exact ⟨fun h => absurd h (not_le.mpr hneg), fun _ => isCeilMultiple_add_sub_emod hf hd⟩
    · rw [if_neg hneg, if_neg (fun h => hneg h.2.2.1)]
      exact ⟨fun _ => isFloorMultiple_sub_emod hf num, fun h => absurd h hneg⟩

/-- **Where the four functions go wrong.** The estimate answers 0 for `(-1).floor(-20)` and
`1.ceil(-20)`, whose results are `-10 ** 20` and `10 ** 20`; the Integer path of `rb_int_ceil`
adds `f` to a multiple, so `0.ceil(-19)` is `10 ** 19`, and that of `rb_int_truncate` adds `f` to a
negative multiple; and with `ndigits = 0` the half-down Fixnum path takes 1 from `5`. -/
theorem integer_rounding_wrong_results (bld : Build) (fuel : ℕ) :
    rbIntFloor bld fuel (-1) (-20) = some 0 ∧ ¬IsFloorMultiple (10 ^ 20) (-1) 0 ∧
    rbIntCeil bld fuel 1 (-20) = some 0 ∧ ¬IsCeilMultiple (10 ^ 20) 1 0 ∧
    rbIntCeil bld (fuel + 25) 0 (-19) = some (10 ^ 19) ∧
      ¬IsCeilMultiple (10 ^ 19) 0 (10 ^ 19) ∧
    rbIntTruncate bld (fuel + 7) (-10 ^ 30) (-1) = some (-10 ^ 30 + 10) ∧
      ¬IsTruncMultiple 10 (-10 ^ 30) (-10 ^ 30 + 10) ∧
    rbIntRound bld (fuel + 6) 5 0 .halfDown = some 4 ∧ ¬IsNearestMultiple .halfDown 1 5 4 := by
  have hz20 : ∀ num, fixableP num = true → intRoundZeroP num (-20) = true :=
    fun num h => intRoundZeroP_of_fixnum h (le_refl _)
  have hz19 : intRoundZeroP 0 (-19) = false :=
    intRoundZeroP_eq_false (by rw [intRoundBytes, if_pos (by decide)]; norm_num)
  have hz0 : intRoundZeroP 5 0 = false :=
    intRoundZeroP_eq_false (by rw [intRoundBytes, if_pos (by decide)]; norm_num)
  have hz1 : intRoundZeroP (-10 ^ 30) (-1) = false := by
    cases h : intRoundZeroP (-10 ^ 30) (-1)
    · rfl
    · have := intRoundZeroP_sound h
      norm_num at this
  refine ⟨?_, ?_, ?_, ?_, ?_, ?_, ?_, ?_, ?_, ?_⟩
  · rw [rbIntFloor, intRoundWith, if_pos (hz20 _ (by decide))]
  · rintro ⟨-, h, -⟩
    norm_num at h
  · rw [rbIntCeil, intRoundWith, if_pos (hz20 _ (by decide))]
  · rintro ⟨-, h, -⟩
    norm_num at h
  · rw [rbIntCeil, intRoundWith_eq bld 0 (by norm_num) _ _ _ (by norm_num), hz19]
    decide
  · rintro ⟨-, -, h⟩
    norm_num at h
  · rw [rbIntTruncate, intRoundWith_eq bld _ (by norm_num) _ _ _ (by norm_num), hz1]
    decide
  · rintro ⟨-, h⟩
    have := (h (by norm_num)).2.2
    norm_num at this
  · rw [rbIntRound, intRoundWith_eq bld 5 (by norm_num) _ _ _ (by norm_num), hz0]
    decide
  · rintro ⟨-, h, -⟩
    norm_num at h

end CRuby.Num
