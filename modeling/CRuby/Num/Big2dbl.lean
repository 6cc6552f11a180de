import CRuby.Num.FloatCmp
import CRuby.Num.Isqrt
import CRuby.Lib.Binary64Nat
import CRuby.Lib.BitFields

/-!
# `big2dbl` (bignum.c)

`big2dbl` converts a Bignum to a double on a build with 32-bit `BDIGIT`s and binary64 doubles
(`DBL_MANT_DIG = 53`, `DBL_MAX_EXP = 1024`). Of an `L`-bit magnitude it sums the digits that
hold the top `L - 32 * lo ≤ 85` bits in double arithmetic. The digits above `ds[lo]` are summed
exactly. The last one, `dl = ds[lo]`, is rounded by hand when the 54th bit from the top (the
guard bit) is set and some bit below it is too (the sticky bit): it is cleared below the guard
bit and one is added there. Then one double addition rounds the rest, and `ldexp` scales by
`2 ^ (32 * lo)`.

Doubles are their values (`Binary64`), each double operation the rounding of its exact result.

* The loop over the high digits is exact: it leaves `n / 2 ^ (32 * (lo + 1))`
  (`big2dblHigh_eq`).
* The hand rounding reads the guard bit and the sticky bit of `n` (`big2dblRound_of_not_sticky`,
  `big2dblRound_of_sticky`). Without the sticky bit, cutting off the digits below `lo` leaves the
  rounding as it is (`round_div_mul_of_not_sticky`); with it, the sum is already the upper
  neighbour (`round_sum_of_sticky`).
* So `big2dbl` returns the double nearest to `x`, ties to even, below `2 ^ 1024 - 2 ^ 970`. From
  there on it returns `HUGE_VAL` of the sign of `x`, and `rb_big2dbl` warns exactly then
  (`big2dbl_correctly_rounded`).
-/

namespace CRuby.Num

/-! ## The model -/

/-- `DBL_MANT_DIG`. -/
def dblMantDig : ℕ := 53

/-- `DBL_MAX_EXP`. -/
def dblMaxExp : ℕ := 1024

/-- `BITSPERDIG`. -/
def bitsPerDig : ℕ := 32

/-- `BDIGMAX`. -/
def bdigmax : ℕ := 2 ^ 32 - 1

/-- `INT_MAX`. -/
def intMax : ℤ := 2 ^ 31 - 1

/-- `INT_MIN`. -/
def intMin : ℤ := -2 ^ 31

/-- `-d`. -/
def Double.neg : Double → Double
  | .nan => .nan
  | .inf neg => .inf !neg
  | .finite x => .finite (-x)

/-- `ldexp(d, e)`: `d * 2 ^ e` rounded, `HUGE_VAL` of its sign when that overflows.
(`Binary64.round` has no subnormal range; `big2dbl` only scales up.) -/
def ldexp (d : ℚ) (e : ℤ) : Double :=
  let r := Binary64.round (d * 2 ^ e)
  if 2 ^ 1024 ≤ |r| then .inf (decide (r < 0)) else .finite r

/-- `while (--i > lo) { d = ds[i] + BIGRAD*d; }`, from `i` before its decrement. -/
def big2dblHigh (n lo : ℕ) : ℕ → ℚ → ℚ
  | 0, d => d
  | i + 1, d =>
    if lo < i then big2dblHigh n lo i (Binary64.round (bdigit n i + Binary64.round (bigrad * d)))
    else d

/-- `while (i-- > 0) { carry = ds[i] != 0; if (carry) break; }`: a digit below `i` is not
zero. -/
def big2dblSticky (n : ℕ) : ℕ → Bool
  | 0 => false
  | i + 1 => if bdigit n i ≠ 0 then true else big2dblSticky n i

/-- The hand rounding of `big2dbl` on `dl = ds[lo]`, `bits` counting the bits below the guard
bit: when the guard bit `bits % BITSPERDIG` of `dl` is set and some bit below it is too (in `dl`,
or in a lower digit), `dl` is cleared below the guard bit and one is added there, with the carry
out of `dl` added to `d`. -/
def big2dblRound (n lo bits : ℕ) (d : ℚ) (dl : ℕ) : ℚ × ℕ :=
  if bits ≠ 0 ∧ dl &&& 1 <<< (bits % bitsPerDig) ≠ 0 then
    let bits := bits % bitsPerDig
    let carry := decide (dl &&& (bdigmax ^^^ (bdigmax <<< bits) % 2 ^ 32) ≠ 0)
    let carry := if !carry then big2dblSticky n lo else carry
    if carry then
      let dl := dl &&& (bdigmax <<< bits) % 2 ^ 32
      let dl := (dl + 1 <<< bits) % 2 ^ 32
      (if dl = 0 then Binary64.round (d + 1) else d, dl)
    else (d, dl)
  else (d, dl)

/-- The scaling at the end of `big2dbl`, `if (lo) { ... d = ldexp(d, (int)(lo * BITSPERDIG)); }`,
with its guards on `lo`. -/
def big2dblScale (lo : ℕ) (d : ℚ) : Double :=
  if lo ≠ 0 then
    if (lo : ℤ) > intMax / bitsPerDig then .inf false
    else if (lo : ℤ) < intMin / bitsPerDig then .finite 0
    else ldexp d (lo * bitsPerDig)
  else .finite d

/-- The body of `big2dbl` on the digits of a magnitude `n`: zero for no digits, `HUGE_VAL` past
`DBL_MANT_DIG + DBL_MAX_EXP` bits, and otherwise the sum of the digits from `ds[lo]` up, rounded
at the guard bit, scaled. -/
def big2dblAbs (n : ℕ) : Double :=
  let i := bignumLen n
  if i = 0 then .finite 0
  else
    let bits := i * bitsPerDig - nlz (bdigit n (i - 1))
    if bits > dblMantDig + dblMaxExp then .inf false
    else
      let (lo, bits) : ℕ × ℕ :=
        if bits > dblMantDig + 1 then
          ((bits - (dblMantDig + 1)) / bitsPerDig, bits - (dblMantDig + 1))
        else (0, 0)
      let (d, dl) := big2dblRound n lo bits (big2dblHigh n lo i 0) (bdigit n lo)
      big2dblScale lo (Binary64.round (dl + Binary64.round (bigrad * d)))

/-- `big2dbl(x)`, after `bigtrunc`: the body on `|x|`, negated for a negative Bignum. -/
def big2dbl (x : ℤ) : Double :=
  let d := big2dblAbs x.natAbs
  if x < 0 then d.neg else d

/-- The warning `rb_big2dbl` gives on an infinity. -/
def big2dblRangeWarning : String := "Bignum out of Float range"

/-- `rb_big2dbl`: `big2dbl`, with the warning, and `HUGE_VAL` of its sign, on an infinity. -/
def rbBig2dbl (x : ℤ) : Double × Option String :=
  match big2dbl x with
  | .inf neg => (if neg then .inf true else .inf false, some big2dblRangeWarning)
  | d => (d, none)

/-- `int_to_f` (numeric.c): `(double)FIX2LONG(num)` for a Fixnum, `rb_big2dbl` for a Bignum. -/
def intToF : RInteger → Double
  | .fixnum v => .finite (Binary64.round (fix2long v).toInt)
  | .bignum n => (rbBig2dbl n).1

/-! ## The digits -/

/-- The digits from `ds[i]` up are `BIGRAD` times those from `ds[i + 1]` up, plus `ds[i]`. -/
theorem div_eq_bigrad_mul_add_bdigit (n i : ℕ) :
    n / 2 ^ (32 * i) = 2 ^ 32 * (n / 2 ^ (32 * (i + 1))) + bdigit n i := by
  rw [bdigit, mul_add, mul_one, pow_add, ← Nat.div_div_eq_div_mul]
  exact (Nat.div_add_mod _ _).symm

theorem bignumLen_pos {n : ℕ} (hn : n ≠ 0) : 0 < bignumLen n := by
  have := Nat.size_pos.mpr (Nat.pos_of_ne_zero hn)
  unfold bignumLen
  omega

/-- No bit of `n` lies past its digits. -/
theorem div_two_pow_bignumLen (n : ℕ) : n / 2 ^ (32 * bignumLen n) = 0 := by
  refine Nat.div_eq_of_lt ((Nat.lt_size_self n).trans_le (Nat.pow_le_pow_right Nat.two_pos ?_))
  unfold bignumLen
  omega

/-- **`i * BITSPERDIG - nlz(ds[i-1])` is the bit length** of a non-zero magnitude: the top digit
holds its top `size n - 32 * (i - 1)` bits. -/
theorem bits_eq_size {n : ℕ} (hn : n ≠ 0) :
    bignumLen n * bitsPerDig - nlz (bdigit n (bignumLen n - 1)) = n.size := by
  have hL := Nat.size_pos.mpr (Nat.pos_of_ne_zero hn)
  have ht : bignumLen n - 1 = (n.size - 1) / 32 := by
    unfold bignumLen
    omega
  -- the top digit is all of `n / 2 ^ (32 * t)`
  have htop : bdigit n (bignumLen n - 1) = n / 2 ^ (32 * ((n.size - 1) / 32)) := by
    rw [ht, bdigit, Nat.mod_eq_of_lt]
    rw [Nat.div_lt_iff_lt_mul (Nat.two_pow_pos _), ← pow_add]
    exact (Nat.lt_size_self n).trans_le (Nat.pow_le_pow_right Nat.two_pos (by omega))
  rw [htop, nlz, BitFields.size_div_two_pow, bitsPerDig]
  unfold bignumLen
  omega

/-! ## The loop over the high digits -/

/-- `BIGRAD` times a number up to `2 ^ 53` is a double. -/
theorem round_bigrad_mul {h : ℕ} (hh : h ≤ 2 ^ 53) :
    Binary64.round (bigrad * h) = ((2 ^ 32 * h : ℕ) : ℚ) := by
  have hc : bigrad * (h : ℚ) = ((2 ^ 32 * h : ℕ) : ℚ) := by
    rw [bigrad]
    push_cast
    ring
  rw [hc]
  refine Binary64.round_natCast_of_dvd (j := 32) ?_ (Nat.dvd_mul_right _ _)
  rw [pow_add]
  exact Nat.mul_le_mul_left _ hh

/-- `ds[i] + BIGRAD*d` on the value `d` of the digits above `ds[i]`, up to `2 ^ 53`, rounds the
value of the digits from `ds[i]` up. -/
theorem round_digit_sum {n i : ℕ} (h : n / 2 ^ (32 * (i + 1)) ≤ 2 ^ 53) :
    Binary64.round (bdigit n i + Binary64.round (bigrad * (n / 2 ^ (32 * (i + 1)) : ℕ))) =
      Binary64.round (n / 2 ^ (32 * i) : ℕ) := by
  rw [round_bigrad_mul h, ← Nat.cast_add, add_comm, ← div_eq_bigrad_mul_add_bdigit]

/-- One turn `d = ds[i] + BIGRAD*d` is exact while the digits read stay below `2 ^ 53`. -/
theorem round_digit_step {n i : ℕ} (h : n / 2 ^ (32 * i) < 2 ^ 53) :
    Binary64.round (bdigit n i + Binary64.round (bigrad * (n / 2 ^ (32 * (i + 1)) : ℕ))) =
      (n / 2 ^ (32 * i) : ℕ) := by
  have hdiv := div_eq_bigrad_mul_add_bdigit n i
  rw [round_digit_sum (by omega)]
  exact Binary64.round_natCast h

/-- **The loop over the high digits is exact**: from the digits above `ds[i - 1]` it ends on
the value of the digits above `ds[lo]`, when that is below `2 ^ 53`. -/
theorem big2dblHigh_eq {n lo : ℕ} (hH : n / 2 ^ (32 * (lo + 1)) < 2 ^ 53) :
    ∀ i, lo < i → big2dblHigh n lo i (n / 2 ^ (32 * i) : ℕ) = (n / 2 ^ (32 * (lo + 1)) : ℕ)
  | 0, h => absurd h (Nat.not_lt_zero _)
  | i + 1, h => by
    rw [big2dblHigh]
    split_ifs with hlt
    · have hle : n / 2 ^ (32 * i) ≤ n / 2 ^ (32 * (lo + 1)) :=
        Nat.div_le_div_left (Nat.pow_le_pow_right Nat.two_pos (by omega)) (Nat.two_pow_pos _)
      rw [round_digit_step (by omega)]
      exact big2dblHigh_eq hH i hlt
    · rw [show i = lo by omega]

/-- **The scan of the low digits** finds a bit below `ds[i]` set. -/
theorem big2dblSticky_iff (n : ℕ) : ∀ i, big2dblSticky n i = true ↔ n % 2 ^ (32 * i) ≠ 0
  | 0 => by simp [big2dblSticky, Nat.mod_one]
  | i + 1 => by
    have hmod : n % 2 ^ (32 * (i + 1)) = n % 2 ^ (32 * i) + 2 ^ (32 * i) * bdigit n i := by
      rw [mul_add, mul_one, pow_add, Nat.mod_mul, bdigit]
    rw [big2dblSticky, hmod]
    split_ifs with hd
    · have := Nat.mul_pos (Nat.two_pow_pos (32 * i)) (Nat.pos_of_ne_zero hd)
      simp only [true_iff]
      omega
    · rw [big2dblSticky_iff n i, not_not.mp hd, mul_zero, add_zero]

/-! ## The bits of `ds[lo]` -/

theorem and_one_shiftLeft_ne_zero (dl b : ℕ) : dl &&& 1 <<< b ≠ 0 ↔ dl / 2 ^ b % 2 = 1 := by
  rw [Nat.one_shiftLeft, Nat.and_two_pow, Nat.testBit_eq_decide_div_mod_eq]
  by_cases h : dl / 2 ^ b % 2 = 1 <;> simp [h]

/-- `~(BDIGMAX << bits)` in 32 bits is the mask of the bits below `bits`. -/
theorem bdigmax_low_mask {b : ℕ} (hb : b < 32) : bdigmax ^^^ (bdigmax <<< b) % 2 ^ 32 = 2 ^ b - 1 := by
  have h : ∀ b < 32, bdigmax ^^^ (bdigmax <<< b) % 2 ^ 32 = 2 ^ b - 1 := by decide
  exact h b hb

/-- `BDIGMAX << bits` in 32 bits is the mask of the bits from `bits` on. -/
theorem bdigmax_high_mask {b : ℕ} (hb : b < 32) : (bdigmax <<< b) % 2 ^ 32 = 2 ^ 32 - 2 ^ b := by
  have h : ∀ b < 32, (bdigmax <<< b) % 2 ^ 32 = 2 ^ 32 - 2 ^ b := by decide
  exact h b hb

/-! ## The hand rounding

`bits` counts the bits of `n` below its guard bit; it is `32 * lo + r` with `r < 32` the place
of the guard bit in `ds[lo]`. -/

section Rounding

variable {n lo r : ℕ}

/-- Bit `r` of `ds[lo]` is bit `32 * lo + r` of `n`. -/
theorem bdigit_div_two_pow_mod_two (hr : r < 32) :
    bdigit n lo / 2 ^ r % 2 = n / 2 ^ (32 * lo + r) % 2 := by
  have h32 : (2 : ℕ) ^ 32 = 2 ^ r * 2 ^ (32 - r) := by rw [← pow_add, Nat.add_sub_cancel' hr.le]
  rw [bdigit, h32, Nat.mod_mul_right_div_self, Nat.mod_mod_of_dvd _ (dvd_pow_self 2 (by omega)),
    Nat.div_div_eq_div_mul, ← pow_add]

/-- The bits of `n` below `32 * lo + r`: those of the digits below `ds[lo]`, and those of `ds[lo]`
below `r`. -/
theorem mod_two_pow_digits (n lo r : ℕ) (hr : r ≤ 32) :
    n % 2 ^ (32 * lo + r) = n % 2 ^ (32 * lo) + 2 ^ (32 * lo) * (bdigit n lo % 2 ^ r) := by
  rw [pow_add, Nat.mod_mul, bdigit, Nat.mod_mod_of_dvd _ (Nat.pow_dvd_pow 2 hr)]

/-- The bits below `32 * lo` are clear when those below `32 * lo + r` are. -/
theorem mod_two_pow_eq_zero_of_digits (hr : r ≤ 32) (h : n % 2 ^ (32 * lo + r) = 0) :
    n % 2 ^ (32 * lo) = 0 := by
  rw [mod_two_pow_digits n lo r hr] at h
  omega

/-- The guard bit sits at `bits % BITSPERDIG` of `ds[lo]`. -/
theorem bits_mod_bitsPerDig (hr : r < 32) : (32 * lo + r) % bitsPerDig = r := by
  rw [bitsPerDig]
  omega

/-- The test of the guard bit, `dl & ((BDIGIT)1 << bits)`. -/
theorem guard_test_iff (hr : r < 32) :
    bdigit n lo &&& 1 <<< r ≠ 0 ↔ n / 2 ^ (32 * lo + r) % 2 = 1 := by
  rw [and_one_shiftLeft_ne_zero, bdigit_div_two_pow_mod_two hr]

/-- The `carry` of `big2dbl`: a bit of `ds[lo]` below the guard bit, or else one of a lower digit,
is set exactly when a bit of `n` below its guard bit is. -/
theorem carry_iff (hr : r < 32) :
    (if !decide (bdigit n lo &&& (bdigmax ^^^ (bdigmax <<< r) % 2 ^ 32) ≠ 0) then
      big2dblSticky n lo else decide (bdigit n lo &&& (bdigmax ^^^ (bdigmax <<< r) % 2 ^ 32) ≠ 0))
      = true ↔ n % 2 ^ (32 * lo + r) ≠ 0 := by
  rw [bdigmax_low_mask hr, Nat.and_two_pow_sub_one_eq_mod, mod_two_pow_digits n lo r hr.le]
  by_cases hd : bdigit n lo % 2 ^ r = 0
  · rw [hd, mul_zero, add_zero]
    simpa using big2dblSticky_iff n lo
  · have := Nat.mul_pos (Nat.two_pow_pos (32 * lo)) (Nat.pos_of_ne_zero hd)
    simp only [ne_eq, hd, not_false_eq_true, decide_true, Bool.not_true, Bool.false_eq_true,
      if_false, true_iff]
    omega

/-- **No rounding by hand** when the guard bit of `n` is clear or no bit below it is set. -/
theorem big2dblRound_of_not_sticky (hr : r < 32) (d : ℚ)
    (hns : n / 2 ^ (32 * lo + r) % 2 = 0 ∨ n % 2 ^ (32 * lo + r) = 0) :
    big2dblRound n lo (32 * lo + r) d (bdigit n lo) = (d, bdigit n lo) := by
  unfold big2dblRound
  dsimp only
  rw [bits_mod_bitsPerDig hr]
  rcases hns with hg | h0
  · rw [if_neg (fun h => by rw [guard_test_iff hr] at h; omega)]
  · by_cases hguard : 32 * lo + r ≠ 0 ∧ bdigit n lo &&& 1 <<< r ≠ 0
    · rw [if_pos hguard, if_neg (fun h => (carry_iff hr).mp h h0)]
    · rw [if_neg hguard]

/-- **Rounding up by hand**: with the guard bit and a bit below it set, `ds[lo]` is cleared
below the guard bit and one is added there, the carry out of it going to `d`. -/
theorem big2dblRound_of_sticky (hr : r < 32) (d : ℚ) (hg : n / 2 ^ (32 * lo + r) % 2 = 1)
    (hs : n % 2 ^ (32 * lo + r) ≠ 0) :
    big2dblRound n lo (32 * lo + r) d (bdigit n lo) =
      (if (bdigit n lo / 2 ^ r * 2 ^ r + 2 ^ r) % 2 ^ 32 = 0 then Binary64.round (d + 1) else d,
        (bdigit n lo / 2 ^ r * 2 ^ r + 2 ^ r) % 2 ^ 32) := by
  have hbits : 32 * lo + r ≠ 0 := by
    rintro h0
    rw [h0, pow_zero, Nat.mod_one] at hs
    exact hs rfl
  have hdl : bdigit n lo < 2 ^ 32 := Nat.mod_lt _ (Nat.two_pow_pos 32)
  unfold big2dblRound
  dsimp only
  rw [bits_mod_bitsPerDig hr, if_pos ⟨hbits, (guard_test_iff hr).mpr hg⟩,
    if_pos ((carry_iff hr).mpr hs), bdigmax_high_mask hr, BitFields.and_high_mask hdl (by omega),
    Nat.one_shiftLeft]

end Rounding

/-! ## The sum from `ds[lo]` up, scaled -/

section Sum

variable {n lo r : ℕ}

/-- **Rounding up by hand gives the upper neighbour**: the digits from `ds[lo]` up, carry
included, are then `(n / 2 ^ (32 * lo + r + 1) + 1) * 2 ^ (r + 1)`, and their double sum is
exact. -/
theorem round_sum_of_sticky (hr : r < 32) (hq : n / 2 ^ (32 * lo + r + 1) < 2 ^ 53)
    (hg : n / 2 ^ (32 * lo + r) % 2 = 1) :
    Binary64.round (((bdigit n lo / 2 ^ r * 2 ^ r + 2 ^ r) % 2 ^ 32 : ℕ) +
      Binary64.round (bigrad *
        (if (bdigit n lo / 2 ^ r * 2 ^ r + 2 ^ r) % 2 ^ 32 = 0 then
          Binary64.round ((n / 2 ^ (32 * (lo + 1)) : ℕ) + 1)
        else ((n / 2 ^ (32 * (lo + 1)) : ℕ) : ℚ)))) =
      ((n / 2 ^ (32 * lo + r + 1) + 1) * 2 ^ (r + 1) : ℕ) := by
  have hdl : bdigit n lo < 2 ^ 32 := Nat.mod_lt _ (Nat.two_pow_pos 32)
  have h32 : (2 : ℕ) ^ 32 = 2 ^ (31 - r) * 2 ^ (r + 1) := by
    rw [← pow_add]
    congr 1
    omega
  -- the guard bit is set: `ds[lo] / 2 ^ r` is odd
  have hA : bdigit n lo / 2 ^ r = 2 * (bdigit n lo / 2 ^ (r + 1)) + 1 := by
    have h := Nat.div_add_mod (bdigit n lo / 2 ^ r) 2
    rw [bdigit_div_two_pow_mod_two hr, hg, Nat.div_div_eq_div_mul, ← pow_succ] at h
    omega
  have hround : bdigit n lo / 2 ^ r * 2 ^ r + 2 ^ r = (bdigit n lo / 2 ^ (r + 1) + 1) * 2 ^ (r + 1) := by
    rw [hA, pow_succ]
    ring
  have hAlt : (bdigit n lo / 2 ^ (r + 1) + 1) * 2 ^ (r + 1) ≤ 2 ^ 32 := by
    have h : bdigit n lo / 2 ^ (r + 1) < 2 ^ (31 - r) := by
      rw [Nat.div_lt_iff_lt_mul (Nat.two_pow_pos _), ← h32]
      exact hdl
    rw [h32]
    exact Nat.mul_le_mul_right _ h
  -- the quotient at the guard bit, read off the digits
  have hsplit : n / 2 ^ (32 * lo) = 2 ^ (r + 1) * (2 ^ (31 - r) * (n / 2 ^ (32 * (lo + 1)))) +
      bdigit n lo := by
    rw [div_eq_bigrad_mul_add_bdigit, h32]
    ring
  have hq' : n / 2 ^ (32 * lo + r + 1) =
      2 ^ (31 - r) * (n / 2 ^ (32 * (lo + 1))) + bdigit n lo / 2 ^ (r + 1) := by
    rw [add_assoc, pow_add, ← Nat.div_div_eq_div_mul, hsplit, Nat.mul_add_div (Nat.two_pow_pos _)]
  have hval : (n / 2 ^ (32 * lo + r + 1) + 1) * 2 ^ (r + 1) =
      2 ^ 32 * (n / 2 ^ (32 * (lo + 1))) + (bdigit n lo / 2 ^ (r + 1) + 1) * 2 ^ (r + 1) := by
    rw [hq', h32]
    ring
  -- the upper neighbour is a multiple of `2 ^ (r + 1)` up to `2 ^ (r + 1 + 53)`: a double
  have hexact : Binary64.round (((n / 2 ^ (32 * lo + r + 1) + 1) * 2 ^ (r + 1) : ℕ) : ℚ) =
      ((n / 2 ^ (32 * lo + r + 1) + 1) * 2 ^ (r + 1) : ℕ) := by
    refine Binary64.round_natCast_of_dvd (j := r + 1) ?_ (Nat.dvd_mul_left _ _)
    rw [show 2 ^ (r + 1 + 53) = 2 ^ 53 * 2 ^ (r + 1) by rw [← pow_add, add_comm]]
    exact Nat.mul_le_mul_right _ hq
  have hH : n / 2 ^ (32 * (lo + 1)) < 2 ^ 53 := by
    have := Nat.le_mul_of_pos_left (n / 2 ^ (32 * (lo + 1))) (Nat.two_pow_pos (31 - r))
    omega
  rw [hround]
  rcases hAlt.lt_or_eq with hlt | heq
  · -- no carry out of `ds[lo]`
    have hne : (bdigit n lo / 2 ^ (r + 1) + 1) * 2 ^ (r + 1) % 2 ^ 32 ≠ 0 := by
      rw [Nat.mod_eq_of_lt hlt]
      positivity
    rw [if_neg hne, Nat.mod_eq_of_lt hlt, round_bigrad_mul hH.le, ← Nat.cast_add, add_comm, ← hval]
    exact hexact
  · -- `ds[lo]` wraps to zero and the carry goes to the high digits
    have hH1 : Binary64.round (((n / 2 ^ (32 * (lo + 1)) : ℕ) : ℚ) + 1) =
        ((n / 2 ^ (32 * (lo + 1)) + 1 : ℕ) : ℚ) := by
      rw [← Nat.cast_one (R := ℚ), ← Nat.cast_add]
      exact Binary64.round_natCast_of_dvd (j := 0) (by omega) (one_dvd _)
    rw [heq, Nat.mod_self, if_pos rfl, hH1, round_bigrad_mul (by omega), Nat.cast_zero, zero_add,
      show 2 ^ 32 * (n / 2 ^ (32 * (lo + 1)) + 1) = (n / 2 ^ (32 * lo + r + 1) + 1) * 2 ^ (r + 1) by
        rw [hval, heq]; ring]
    exact hexact

/-- The bit length of `n` pins its binade: `bits = 32 * lo + r` bits lie below the guard bit. -/
theorem binade_of_size (hsize : n.size = 32 * lo + r + 54) :
    2 ^ (32 * lo + r + 53) ≤ n ∧ n < 2 ^ (32 * lo + r + 54) := by
  refine ⟨Nat.lt_size.mp ?_, ?_⟩
  · rw [hsize]
    omega
  · rw [← hsize]
    exact Nat.lt_size_self n

/-- **Cutting off the digits below `ds[lo]`** keeps the rounding of `n` when its guard bit is
clear or no bit below it is set. -/
theorem round_div_mul_of_not_sticky (hr : r < 32) (hsize : n.size = 32 * lo + r + 54)
    (hns : n / 2 ^ (32 * lo + r) % 2 = 0 ∨ n % 2 ^ (32 * lo + r) = 0) :
    Binary64.round (n / 2 ^ (32 * lo) : ℕ) * 2 ^ (32 * lo) = Binary64.round n := by
  obtain ⟨h1, h2⟩ := binade_of_size hsize
  have h1' : 2 ^ (r + 1 + 32 * lo + 52) ≤ n := by
    rw [show r + 1 + 32 * lo + 52 = 32 * lo + r + 53 by ring]
    exact h1
  have h2' : n < 2 ^ (r + 1 + 32 * lo + 53) := by
    rw [show r + 1 + 32 * lo + 53 = 32 * lo + r + 54 by ring]
    exact h2
  refine Binary64.round_natCast_div_two_pow (Nat.succ_pos r) h1' h2' ?_
  rcases hns with hg | h0
  · right
    rw [show r + 1 + 32 * lo - 1 = 32 * lo + r by omega]
    exact hg
  · exact .inl (mod_two_pow_eq_zero_of_digits hr.le h0)

/-- With the guard bit and a bit below it set, `n` rounds to its upper neighbour. -/
theorem round_eq_of_sticky (hsize : n.size = 32 * lo + r + 54) (hg : n / 2 ^ (32 * lo + r) % 2 = 1)
    (hs : n % 2 ^ (32 * lo + r) ≠ 0) :
    Binary64.round n = ((n / 2 ^ (32 * lo + r + 1) + 1) * 2 ^ (r + 1) : ℕ) * 2 ^ (32 * lo) := by
  obtain ⟨h1, h2⟩ := binade_of_size hsize
  rw [Binary64.round_natCast_of_sticky (j := 32 * lo + r + 1) (Nat.succ_pos _) h1 h2
    (by rw [Nat.add_sub_cancel]; exact hg) (by rw [Nat.add_sub_cancel]; exact hs)]
  push_cast
  ring

end Sum

/-! ## `big2dbl` -/

/-- **The scaling is exact up to overflow**: on a sum that scales to `round n`, the end of
`big2dbl` returns `round n`, or `HUGE_VAL` from `2 ^ 1024 - 2 ^ 970` on. -/
theorem big2dblScale_eq {n lo : ℕ} {F : ℚ} (hlo : lo ≤ 31)
    (hF : F * 2 ^ (32 * lo) = Binary64.round n) (hsmall : lo = 0 → n < 2 ^ 1024 - 2 ^ 970) :
    big2dblScale lo F = if n < 2 ^ 1024 - 2 ^ 970 then .finite (Binary64.round n) else .inf false := by
  unfold big2dblScale
  rcases Nat.eq_zero_or_pos lo with rfl | hpos
  · rw [if_neg (not_not.mpr rfl), if_pos (hsmall rfl), ← hF, mul_zero, pow_zero, mul_one]
  rw [if_pos hpos.ne', if_neg (by rw [intMax, bitsPerDig]; omega),
    if_neg (by rw [intMin, bitsPerDig]; omega)]
  unfold ldexp
  dsimp only
  have hexp : F * 2 ^ ((lo : ℤ) * (bitsPerDig : ℤ)) = Binary64.round n := by
    rw [← hF, bitsPerDig, show (lo : ℤ) * ((32 : ℕ) : ℤ) = ((32 * lo : ℕ) : ℤ) by push_cast; ring,
      zpow_natCast]
  have hnn := Binary64.round_natCast_nonneg n
  rw [hexp, Binary64.round_round_natCast, abs_of_nonneg hnn]
  by_cases h : n < 2 ^ 1024 - 2 ^ 970
  · rw [if_neg (fun h' => not_le.mpr h (Binary64.two_pow_le_round_natCast_iff n |>.mp h')), if_pos h]
  · rw [if_pos ((Binary64.two_pow_le_round_natCast_iff n).mpr (not_lt.mp h)), if_neg h,
      decide_eq_false (not_lt.mpr hnn)]

/-- With no bit below the guard bit (`bits = 0`), nothing is rounded by hand. -/
theorem big2dblRound_zero (n lo : ℕ) (d : ℚ) (dl : ℕ) : big2dblRound n lo 0 d dl = (d, dl) := by
  unfold big2dblRound
  rw [if_neg (fun h => h.1 rfl)]

/-- **`big2dbl` on a magnitude**: the double nearest to it, ties to even, below
`2 ^ 1024 - 2 ^ 970`, and `HUGE_VAL` from there on. -/
theorem big2dblAbs_eq (n : ℕ) :
    big2dblAbs n = if n < 2 ^ 1024 - 2 ^ 970 then .finite (Binary64.round n) else .inf false := by
  rcases Nat.eq_zero_or_pos n with rfl | hn
  · -- no digits
    rw [if_pos (by omega), Nat.cast_zero, Binary64.round_zero]
    simp [big2dblAbs, bignumLen]
  have hlen := bignumLen_pos hn.ne'
  have hn2 : n < 2 ^ n.size := Nat.lt_size_self n
  unfold big2dblAbs
  dsimp only
  rw [if_neg hlen.ne', bits_eq_size hn.ne', show dblMantDig + dblMaxExp = 1077 from rfl,
    show dblMantDig + 1 = 54 from rfl, show bitsPerDig = 32 from rfl]
  by_cases hbig : n.size > 1077
  · -- more than `DBL_MANT_DIG + DBL_MAX_EXP` bits: at least `2 ^ 1077`
    have h1077 := Nat.lt_size.mp hbig
    rw [if_pos hbig, if_neg (by omega)]
  rw [if_neg hbig]
  by_cases hmid : n.size > 54
  · rw [if_pos hmid]
    dsimp only
    -- `s = 32 * lo + r` bits lie below the guard bit, `r` of them in `ds[lo]`
    obtain ⟨lo, r, hr, hs, hlo⟩ : ∃ lo r, r < 32 ∧ n.size - 54 = 32 * lo + r ∧
        (n.size - 54) / 32 = lo :=
      ⟨_, _, Nat.mod_lt _ (by norm_num), (Nat.div_add_mod _ 32).symm, rfl⟩
    rw [hlo, hs]
    have hsize : n.size = 32 * lo + r + 54 := by omega
    have hH : n / 2 ^ (32 * (lo + 1)) < 2 ^ 53 := by
      rw [Nat.div_lt_iff_lt_mul (Nat.two_pow_pos _), ← pow_add]
      exact hn2.trans_le (Nat.pow_le_pow_right Nat.two_pos (by omega))
    have hq : n / 2 ^ (32 * lo + r + 1) < 2 ^ 53 := by
      rw [Nat.div_lt_iff_lt_mul (Nat.two_pow_pos _), ← pow_add]
      exact hn2.trans_le (Nat.pow_le_pow_right Nat.two_pos (by omega))
    have hhigh : big2dblHigh n lo (bignumLen n) 0 = (n / 2 ^ (32 * (lo + 1)) : ℕ) := by
      have h0 : ((n / 2 ^ (32 * bignumLen n) : ℕ) : ℚ) = 0 := by
        rw [div_two_pow_bignumLen, Nat.cast_zero]
      rw [← h0]
      exact big2dblHigh_eq hH _ (by unfold bignumLen; omega)
    have hlo : lo ≤ 31 := by omega
    have hsmall : lo = 0 → n < 2 ^ 1024 - 2 ^ 970 := by
      intro h0
      have : n < 2 ^ 86 := hn2.trans_le (Nat.pow_le_pow_right Nat.two_pos (by omega))
      omega
    rw [hhigh]
    by_cases hcase : n / 2 ^ (32 * lo + r) % 2 = 1 ∧ n % 2 ^ (32 * lo + r) ≠ 0
    · -- rounded up by hand, to the upper neighbour
      rw [big2dblRound_of_sticky hr _ hcase.1 hcase.2]
      dsimp only
      rw [round_sum_of_sticky hr hq hcase.1]
      exact big2dblScale_eq hlo (round_eq_of_sticky hsize hcase.1 hcase.2).symm hsmall
    · -- left to the double addition, which rounds as `n` does
      have hns : n / 2 ^ (32 * lo + r) % 2 = 0 ∨ n % 2 ^ (32 * lo + r) = 0 := by omega
      rw [big2dblRound_of_not_sticky hr _ hns]
      dsimp only
      rw [round_digit_sum hH.le]
      exact big2dblScale_eq hlo (round_div_mul_of_not_sticky hr hsize hns) hsmall
  · -- at most 54 bits: one double addition rounds the two low digits
    rw [if_neg hmid]
    dsimp only
    have hH : n / 2 ^ (32 * (0 + 1)) < 2 ^ 53 := by
      rw [Nat.div_lt_iff_lt_mul (Nat.two_pow_pos _), ← pow_add]
      exact hn2.trans_le (Nat.pow_le_pow_right Nat.two_pos (by omega))
    have hhigh : big2dblHigh n 0 (bignumLen n) 0 = (n / 2 ^ (32 * (0 + 1)) : ℕ) := by
      have h0 : ((n / 2 ^ (32 * bignumLen n) : ℕ) : ℚ) = 0 := by
        rw [div_two_pow_bignumLen, Nat.cast_zero]
      rw [← h0]
      exact big2dblHigh_eq hH _ hlen
    rw [hhigh, big2dblRound_zero]
    dsimp only
    rw [round_digit_sum hH.le]
    refine big2dblScale_eq le_add_self (by simp) fun _ => ?_
    have : n < 2 ^ 54 := hn2.trans_le (Nat.pow_le_pow_right Nat.two_pos (by omega))
    omega

/-- `big2dbl` on a Bignum: the sign of `x` over the body on `|x|`. -/
theorem big2dbl_eq (x : ℤ) :
    big2dbl x = if |x| < 2 ^ 1024 - 2 ^ 970 then .finite (Binary64.round x)
      else .inf (decide (x < 0)) := by
  have habs : ((x.natAbs : ℕ) : ℤ) = |x| := Int.natCast_natAbs x
  have hlt : x.natAbs < 2 ^ 1024 - 2 ^ 970 ↔ |x| < 2 ^ 1024 - 2 ^ 970 := by
    rw [← habs]
    omega
  unfold big2dbl
  dsimp only
  rw [big2dblAbs_eq, Nat.cast_natAbs, Int.cast_abs]
  rcases lt_or_ge x 0 with hx | hx
  · -- a negative Bignum: `d = -d`
    have hxq : (x : ℚ) < 0 := by exact_mod_cast hx
    rw [if_pos hx, abs_of_neg hxq]
    by_cases h : |x| < 2 ^ 1024 - 2 ^ 970
    · rw [if_pos (hlt.mpr h), if_pos h, Double.neg, Binary64.round_neg, neg_neg]
    · rw [if_neg (mt hlt.mp h), if_neg h, Double.neg, decide_eq_true hx]
      rfl
  · have hxq : (0 : ℚ) ≤ x := by exact_mod_cast hx
    rw [if_neg (not_lt.mpr hx), abs_of_nonneg hxq]
    by_cases h : |x| < 2 ^ 1024 - 2 ^ 970
    · rw [if_pos (hlt.mpr h), if_pos h]
    · rw [if_neg (mt hlt.mp h), if_neg h, decide_eq_false (not_lt.mpr hx)]

theorem rbBig2dbl_eq (x : ℤ) :
    rbBig2dbl x = (big2dbl x,
      if |x| < 2 ^ 1024 - 2 ^ 970 then none else some big2dblRangeWarning) := by
  unfold rbBig2dbl
  rw [big2dbl_eq]
  split_ifs with h
  · rfl
  · cases decide (x < 0) <;> rfl

/-- A Fixnum is far below the overflow threshold. -/
theorem abs_fix2long_lt (v : Value) : |(fix2long v).toInt| < 2 ^ 1024 - 2 ^ 970 := by
  have hlo := BitVec.le_toInt v
  have hhi := BitVec.toInt_lt (x := v)
  rw [toInt_fix2long, abs_lt]
  norm_num at hlo hhi
  constructor <;> omega

/-- **`Integer#to_f`, `big2dbl` and `rb_big2dbl` round correctly**: every Integer converts to
the double nearest to it, ties to even, below `2 ^ 1024 - 2 ^ 970`, and to `HUGE_VAL` of its
sign from there on, where `rb_big2dbl` warns, and only there. -/
theorem big2dbl_correctly_rounded :
    (∀ x : ℤ, big2dbl x = if |x| < 2 ^ 1024 - 2 ^ 970 then .finite (Binary64.round x)
      else .inf (decide (x < 0))) ∧
    (∀ x : ℤ, rbBig2dbl x = (big2dbl x,
      if |x| < 2 ^ 1024 - 2 ^ 970 then none else some big2dblRangeWarning)) ∧
    ∀ x : RInteger, intToF x = if |x.val| < 2 ^ 1024 - 2 ^ 970 then .finite (Binary64.round x.val)
      else .inf (decide (x.val < 0)) := by
  refine ⟨big2dbl_eq, rbBig2dbl_eq, fun x => ?_⟩
  cases x with
  | fixnum v => rw [intToF, RInteger.val, if_pos (abs_fix2long_lt v)]
  | bignum n => rw [intToF, RInteger.val, rbBig2dbl_eq, big2dbl_eq]

end CRuby.Num
