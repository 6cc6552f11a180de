import CRuby.Num.Fixnum
import CRuby.Lib.Binary64
import Mathlib.Data.Nat.Size
import Mathlib.Data.Nat.Bitwise

/-!
# `Integer.sqrt` (numeric.c, bignum.c)

`rb_int_s_isqrt` on an LP64 build: `unsigned long` and `BDIGIT_DBL` of 64 bits, `BDIGIT` of 32,
binary64 doubles (`DBL_MANT_DIG = 53`). A Fixnum and a one-digit Bignum go to `rb_ulong_isqrt`,
a larger Bignum to `rb_big_isqrt`, which for two digits calls `rb_ulong_isqrt` too and above
that starts a Newton loop from `estimate_initial_sqrt`. Bignums are read by value: digit `i` is
`n / 2 ^ (32 * i) % 2 ^ 32`, and `BIGNUM_LEN` counts the digits up to the highest non-zero one.

* `newtonLoop` is the loop of `DEFINE_INT_SQRT`, and by value the loop of `rb_big_isqrt`; from
  any start at or above the integer square root it ends on it (`newtonLoop_eq_sqrt`).
* `rb_ulong_isqrt` starts it, for `n ≥ 2 ^ 53`, at or above the root (`sqrt_le_initial`), so that
  branch is exact (`rbUlongIsqrt_of_le`).
* Below `2 ^ 53` it returns `(unsigned long)sqrt((double)n)`, and the correctly rounded square
  root of `k ^ 2 - 1` is `k` itself for `2 ^ 26 < k`: at `n = (2 ^ 26 + 1) ^ 2 - 1`, a Fixnum, the
  result is one too large.
* `estimate_initial_sqrt` takes an integral `sqrt` of the top bits for a perfect square, with the
  same rounding, and can round the estimate up to `2 ^ 64`, which wraps to 0.
-/

namespace CRuby.Num

/-! ## The Newton loop -/

/-- The loop of `DEFINE_INT_SQRT`, `while ((t = n/x) < x) x = (x + t) >> 1`. `rb_big_isqrt`
runs the same loop on Bignums (`bary_divmod_branch`, then `bary_add` and a one-bit
`bary_small_rshift` that shifts the carry back in). -/
def newtonLoop (n x : ℕ) : ℕ :=
  if n / x < x then newtonLoop n ((x + n / x) / 2) else x
termination_by x
decreasing_by omega

/-- **A turn of the loop stays at or above the root** (the arithmetic-geometric mean
inequality in integers). -/
theorem sqrt_le_newton_step {n x : ℕ} (hx : Nat.sqrt n ≤ x) : Nat.sqrt n ≤ (x + n / x) / 2 := by
  set r := Nat.sqrt n
  have hr : r * r ≤ n := Nat.sqrt_le n
  rcases Nat.eq_zero_or_pos x with rfl | hx0
  · omega
  by_cases h2 : 2 * r ≤ x
  · have := Nat.div_le_div_right (c := 2) (Nat.le_add_right x (n / x))
    omega
  -- `(2 * r - x) * x ≤ r * r`, since the difference is `(r - x) ^ 2`
  have hmul : (2 * r - x) * x ≤ n := by
    refine le_trans ?_ hr
    zify [(by omega : x ≤ 2 * r)]
    nlinarith [sq_nonneg ((r : ℤ) - x)]
  have hdiv : 2 * r - x ≤ n / x := (Nat.le_div_iff_mul_le hx0).mpr hmul
  omega

/-- The loop stops only at or below the root. -/
theorem le_sqrt_of_not_lt {n x : ℕ} (h : ¬n / x < x) : x ≤ Nat.sqrt n := by
  rcases Nat.eq_zero_or_pos x with rfl | hx0
  · exact Nat.zero_le _
  refine Nat.le_sqrt.mpr (le_trans ?_ (Nat.mul_div_le n x))
  exact Nat.mul_le_mul_left x (not_lt.mp h)

/-- **The Newton loop ends on the integer square root** from every start at or above it. -/
theorem newtonLoop_eq_sqrt {n x : ℕ} (hx : Nat.sqrt n ≤ x) : newtonLoop n x = Nat.sqrt n := by
  induction x using Nat.strong_induction_on with
  | _ x ih =>
    rw [newtonLoop]
    split_ifs with h
    · exact ih _ (by omega) (sqrt_le_newton_step hx)
    · exact le_antisymm (le_sqrt_of_not_lt h) hx

/-! ## `rb_ulong_isqrt` -/

/-- `bit_length` of an `unsigned long`: `64 - nlz_long(n)`, the number of bits of `n`. -/
def bitLength (n : ℕ) : ℕ := Nat.size n

/-- The start of the Newton loop of `DEFINE_INT_SQRT`:
`x = (n >> (b/2+1)) | (1 << (b-1)/2)` for `b = bit_length(n)`. -/
def isqrtInitial (n : ℕ) : ℕ :=
  let b := bitLength n
  n >>> (b / 2 + 1) ||| 1 <<< ((b - 1) / 2)

/-- `rb_ulong_isqrt`, for an `unsigned long` `n`: the Newton loop unless `RB_ULONG_IN_DOUBLE_P(n)`,
which on LP64 is `n < 2 ^ DBL_MANT_DIG`; else `(unsigned long)sqrt((double)n)`. -/
def rbUlongIsqrt (n : ℕ) : ℕ :=
  if ¬n < 2 ^ 53 then newtonLoop n (isqrtInitial n)
  else (Binary64.truncate (Binary64.sqrt (Binary64.round n))).toNat

/-- The two parts of the start do not overlap: the high bits of `n` stay below the bit that is
set, so the start is their sum. -/
theorem isqrtInitial_eq (n : ℕ) :
    isqrtInitial n = n / 2 ^ (bitLength n / 2 + 1) + 2 ^ ((bitLength n - 1) / 2) := by
  have hn : n < 2 ^ bitLength n := Nat.lt_size_self n
  have hlt : n / 2 ^ (bitLength n / 2 + 1) < 2 ^ ((bitLength n - 1) / 2) := by
    rw [Nat.div_lt_iff_lt_mul (by positivity), ← pow_add]
    exact hn.trans_le (Nat.pow_le_pow_right two_pos (by omega))
  have h := Nat.two_pow_add_eq_or_of_lt hlt 1
  rw [mul_one] at h
  rw [isqrtInitial, Nat.shiftRight_eq_div_pow, Nat.one_shiftLeft, Nat.lor_comm, ← h, add_comm]

/-- **The start is at or above the root**: with `h = b/2 + 1` and `c = (b-1)/2`,
`n < (n / 2 ^ h + 1) * 2 ^ h ≤ 4 * (n / 2 ^ h + 1) * 2 ^ c ≤ (n / 2 ^ h + 1 + 2 ^ c) ^ 2`. -/
theorem sqrt_le_isqrtInitial (n : ℕ) : Nat.sqrt n ≤ isqrtInitial n := by
  rw [isqrtInitial_eq, ← Nat.lt_add_one_iff, Nat.sqrt_lt']
  generalize bitLength n = b
  have hdiv : n < (n / 2 ^ (b / 2 + 1) + 1) * 2 ^ (b / 2 + 1) := by
    rw [add_mul, one_mul]
    exact Nat.lt_div_mul_add (by positivity)
  have hpow : 2 ^ (b / 2 + 1) ≤ 4 * 2 ^ ((b - 1) / 2) := by
    calc 2 ^ (b / 2 + 1) ≤ 2 ^ ((b - 1) / 2 + 2) := Nat.pow_le_pow_right two_pos (by omega)
      _ = 4 * 2 ^ ((b - 1) / 2) := by ring
  calc n < (n / 2 ^ (b / 2 + 1) + 1) * 2 ^ (b / 2 + 1) := hdiv
    _ ≤ (n / 2 ^ (b / 2 + 1) + 1) * (4 * 2 ^ ((b - 1) / 2)) := Nat.mul_le_mul_left _ hpow
    _ = 4 * (n / 2 ^ (b / 2 + 1) + 1) * 2 ^ ((b - 1) / 2) := by ring
    _ ≤ (n / 2 ^ (b / 2 + 1) + 1 + 2 ^ ((b - 1) / 2)) ^ 2 := four_mul_le_sq_add _ _
    _ = (n / 2 ^ (b / 2 + 1) + 2 ^ ((b - 1) / 2) + 1) ^ 2 := by ring

/-- **Above `2 ^ 53`, `rb_ulong_isqrt` returns the integer square root.** -/
theorem rbUlongIsqrt_of_le {n : ℕ} (h : 2 ^ 53 ≤ n) : rbUlongIsqrt n = Nat.sqrt n := by
  rw [rbUlongIsqrt, if_pos (not_lt.mpr h)]
  exact newtonLoop_eq_sqrt (sqrt_le_isqrtInitial n)

/-! ## The double branch -/

/-- **Below `2 ^ 52` the double branch is exact**: for the root `r`, `√n` stays `2 ^ -27` or more
below `r + 1`, and `r + 1 - 2 ^ -27` is a double, so the rounding stays in `[r, r + 1)`. -/
theorem rbUlongIsqrt_of_lt {n : ℕ} (h : n < 2 ^ 52) : rbUlongIsqrt n = Nat.sqrt n := by
  set r := Nat.sqrt n
  have hr1 : r ^ 2 ≤ n := Nat.sqrt_le' n
  have hr2 : n < (r + 1) ^ 2 := Nat.lt_succ_sqrt' n
  have hr : r + 1 ≤ 2 ^ 26 := by
    by_contra hc
    have h26 : (2 ^ 26) ^ 2 ≤ r ^ 2 := Nat.pow_le_pow_left (by omega) 2
    omega
  rw [rbUlongIsqrt, if_neg (not_not.mpr (by omega)), Binary64.round_natCast (by omega)]
  obtain ⟨-, hnear⟩ :=
    Binary64.sqrt_nearest (Binary64.isFinite_natCast (by omega)) (Nat.cast_nonneg n)
  -- the neighbours `r` and `r + 1 - 2 ^ -27` of `√n`
  have hlo : (r : ℚ) ≤ Binary64.sqrt n := by
    refine Binary64.le_nearest hnear (Binary64.isFinite_natCast (by omega)) ?_
    rw [Rat.cast_natCast]
    exact (Real.le_sqrt (by positivity) (by positivity)).mpr (by exact_mod_cast hr1)
  have hhi : Binary64.sqrt n ≤ (r + 1 : ℚ) - 2 ^ (-27 : ℤ) := by
    refine Binary64.nearest_le hnear ⟨(r + 1) * 2 ^ 27 - 1, -27, ?_, by norm_num, by norm_num, ?_⟩ ?_
    · rw [abs_lt]
      constructor <;> omega
    · have h27 : (134217728 : ℚ) * 2 ^ (-27 : ℤ) = 1 := by norm_num
      push_cast
      rw [sub_mul, mul_assoc, h27]
      ring
    · have hr2' : (n : ℝ) + 1 ≤ ((r : ℝ) + 1) ^ 2 := by exact_mod_cast hr2
      have hr' : (r : ℝ) + 1 ≤ 2 ^ 26 := by exact_mod_cast hr
      have ht : (2 : ℝ) ^ (-27 : ℤ) = 1 / 134217728 := by norm_num
      push_cast
      rw [ht, Real.sqrt_le_left (by linarith)]
      nlinarith
  have hf0 : 0 ≤ Binary64.sqrt n := (Nat.cast_nonneg r).trans hlo
  have hfloor : ⌊Binary64.sqrt n⌋ = r := by
    rw [Int.floor_eq_iff]
    push_cast
    exact ⟨hlo, hhi.trans_lt (by linarith [zpow_pos (two_pos : (0 : ℚ) < 2) (-27)])⟩
  rw [Binary64.truncate, if_pos hf0, hfloor, Int.toNat_natCast]

/-- **Just below the squares `k ^ 2` with `2 ^ 26 < k`, the correctly rounded square root is
`k`**: `√(k ^ 2 - 1)` is within half an ulp (`2 ^ -27`) of `k`. -/
theorem sqrt_round_sq_sub_one {k : ℕ} (hk1 : 2 ^ 26 < k) (hk2 : k ^ 2 ≤ 2 ^ 53) :
    Binary64.sqrt (Binary64.round ((k ^ 2 - 1 : ℕ) : ℚ)) = k := by
  have hk0 : 1 ≤ k ^ 2 := Nat.one_le_pow _ _ (by omega)
  have hk53 : k < 2 ^ 53 := by nlinarith
  have hkq : ((k ^ 2 - 1 : ℕ) : ℚ) = (k : ℚ) ^ 2 - 1 := by
    rw [Nat.cast_sub hk0]
    push_cast
    ring
  have hk : (2 : ℚ) ^ 26 + 1 ≤ k := by exact_mod_cast hk1
  have hu : Binary64.ulp 26 = 1 / 67108864 := by norm_num [Binary64.ulp]
  rw [Binary64.round_natCast (by omega)]
  refine Binary64.sqrt_eq_of_near (Binary64.isFinite_natCast (by omega)) (Nat.cast_nonneg _)
    (Binary64.isFinite_natCast hk53) (k := 26) ?_ ?_ ?_
  · rw [hu]
    linarith
  · rw [hkq, hu]
    nlinarith
  · rw [hkq, hu]
    nlinarith

/-- **Just below the squares `k ^ 2` with `2 ^ 26 < k ≤ 2 ^ 26.5`, the double branch is one too
large**: it returns `k`, whose square is above `k ^ 2 - 1`. -/
theorem rbUlongIsqrt_sq_sub_one {k : ℕ} (hk1 : 2 ^ 26 < k) (hk2 : k ^ 2 ≤ 2 ^ 53) :
    rbUlongIsqrt (k ^ 2 - 1) = k := by
  have hk0 : 1 ≤ k ^ 2 := Nat.one_le_pow _ _ (by omega)
  rw [rbUlongIsqrt, if_neg (not_not.mpr (by omega)), sqrt_round_sq_sub_one hk1 hk2,
    ← Int.cast_natCast, Binary64.truncate_intCast, Int.toNat_natCast]

theorem sqrt_sq_sub_one {k : ℕ} (hk : 0 < k) : Nat.sqrt (k ^ 2 - 1) = k - 1 := by
  refine (Nat.eq_sqrt'.mpr ⟨?_, ?_⟩).symm
  · have h : (k - 1) ^ 2 + 1 ≤ k ^ 2 := by
      obtain ⟨j, rfl⟩ : ∃ j, k = j + 1 := ⟨k - 1, by omega⟩
      rw [Nat.add_sub_cancel]
      nlinarith
    omega
  · rw [Nat.sub_add_cancel hk]
    exact Nat.sub_lt (pow_pos hk 2) one_pos

/-! ## `rb_int_s_isqrt` and `rb_big_isqrt` -/

/-- What `Integer.sqrt` raises, or where the C code leaves the contract of what it calls. -/
inductive IsqrtError where
  /-- `Math::DomainError`, with its message -/
  | domainError (msg : String)
  /-- `bary_divmod_branch` is handed a divisor whose top digit is 0, which
  `bary_divmod_normal` asserts against and then divides by -/
  | divisorNotNormalized
  deriving DecidableEq, Repr

/-- The message of `domain_error("isqrt")`. -/
def isqrtDomainMessage : String := "Numerical argument is out of domain - \"isqrt\""

/-- `ULONG2NUM` (`rb_ulong2num_inline`): a Fixnum when `RB_POSFIXABLE`, else `rb_uint2big`. -/
def ulong2num (v : ℕ) : RInteger :=
  if posfixableP v then .fixnum (long2fix (BitVec.ofNat 64 v)) else .bignum v

/-- `BIGNUM_LEN` of a Bignum of magnitude `n`: its 32-bit digits up to the highest non-zero
one. -/
def bignumLen (n : ℕ) : ℕ := (Nat.size n + 31) / 32

/-- `BDIGITS(n)[i]`. -/
def bdigit (n i : ℕ) : ℕ := n / 2 ^ (32 * i) % 2 ^ 32

/-- `nlz` of a `BDIGIT`: `nlz_int`, 32 for 0. -/
def nlz (d : ℕ) : ℕ := 32 - Nat.size d

/-- `estimate_initial_sqrt`, its first line of arithmetic:
`rshift = (int)((BITSPERDIG*2-zbits+(len&BITSPERDIG&1) - DBL_MANT_DIG + 1) & ~1)` with
`zbits = nlz(nds[len-1])`. The sum is a `size_t` because of `len`, so it is computed modulo
`2 ^ 64` and read back as an `int`. -/
def estimateRshift (n len : ℕ) : ℤ :=
  let zbits : ℤ := nlz (bdigit n (len - 1))
  ((BitVec.ofInt 64 (32 * 2 - zbits + ((len &&& 32 &&& 1 : ℕ) : ℤ) - 53 + 1) &&& ~~~1#64).setWidth
    32).toInt

/-- The top two digits `d = bary2bdigitdbl(nds+len-2, 2)`, moved by `rshift` to their top 52 or
53 bits, with `lowbits`: `(BDIGIT)d & ~(~(BDIGIT)1U << rshift)` when bits are shifted out, else
its initial 1. Shifting up fills in from `nds[len-3]`. -/
def estimateTop (n len : ℕ) (rshift : ℤ) : Bool × ℕ :=
  let d : ℕ := n / 2 ^ (32 * (len - 2)) % 2 ^ 64
  if 0 < rshift then
    ((BitVec.ofNat 32 d &&& ~~~(~~~1#32 <<< rshift.toNat)) != 0, d >>> rshift.toNat)
  else if rshift < 0 then
    (true, (d <<< (-rshift).toNat) % 2 ^ 64 ||| bdigit n (len - 3) >>> (32 + rshift).toNat)
  else (true, d)

/-- The rest of `estimate_initial_sqrt`, from `f = sqrt((double)d)`: `d = (BDIGIT_DBL)ceil(f)`;
an integral `f` is taken for the root of a perfect square and moved up by one only if a bit
below was set (otherwise `lowbits` is 0 and the caller returns the estimate as exact); then `d`
is shifted, in 64 bits, into the top two digits of the `xn = (len + 1) / 2` digits of `x`. -/
def estimateFinish (n len : ℕ) (rshift : ℤ) (lowbits : Bool) (f : ℚ) : ℕ × Bool :=
  let d : ℕ := ⌈f⌉.toNat
  let (lowbits, d) : Bool × ℕ :=
    if Binary64.round d = f then
      -- `if (lowbits || (lowbits = !bary_zero_p(nds, len-dbl_per_bdig))) ++d;`
      let lowbits := lowbits || n % 2 ^ (32 * (len - 2)) != 0
      (lowbits, if lowbits then d + 1 else d)
    else (true, d)
  let rshift := rshift.tdiv 2 + (((2 - (len &&& 1)) * 32 / 2 : ℕ) : ℤ)
  let d := if 0 ≤ rshift then (d <<< rshift.toNat) % 2 ^ 64 else d
  (d * 2 ^ (32 * ((len + 1) / 2 - 2)), lowbits)

/-- `estimate_initial_sqrt` for a Bignum of magnitude `n` with `len ≥ 3` digits: the start `x` of
the Newton loop and whether `lowbits` is non-zero. -/
def estimateInitialSqrt (n len : ℕ) : ℕ × Bool :=
  let rshift := estimateRshift n len
  let (lowbits, d) := estimateTop n len rshift
  estimateFinish n len rshift lowbits (Binary64.sqrt (Binary64.round d))

/-- `rb_big_isqrt` on a Bignum of magnitude `n`. Up to two digits it is `rb_ulong_isqrt` of the
`BDIGIT_DBL` (on LP64 `rb_bdigit_dbl_isqrt(x)` is `(BDIGIT)rb_ulong_isqrt(x)`), returned by
`ULONG2NUM`; above, the estimate when `estimate_initial_sqrt` calls it exact, else the Newton
loop from it. The loop divides by `x`; from a start whose top digit is not 0 it only moves to
values at or above the root (`sqrt_le_newton_step`), whose top digit is not 0 either, or stops. -/
def rbBigIsqrt (n : ℕ) : Except IsqrtError RInteger :=
  let len := bignumLen n
  if len ≤ 2 then .ok (ulong2num (rbUlongIsqrt n % 2 ^ 32))
  else
    let (x, lowbits) := estimateInitialSqrt n len
    if !lowbits then .ok (.bignum x)
    else if bdigit x ((len + 1) / 2 - 1) = 0 then .error .divisorNotNormalized
    else .ok (.bignum (newtonLoop n x))

/-- `rb_int_s_isqrt` on an `Integer` (after `rb_to_int`). -/
def rbIntSIsqrt (num : RInteger) : Except IsqrtError RInteger :=
  match num with
  | .fixnum v =>
    -- `FIXNUM_NEGATIVE_P`, then `FIX2ULONG` and `LONG2FIX`
    if v.toInt < 0 then .error (.domainError isqrtDomainMessage)
    else .ok (.fixnum (long2fix (BitVec.ofNat 64 (rbUlongIsqrt (fix2long v).toNat))))
  | .bignum n =>
    if n < 0 then .error (.domainError isqrtDomainMessage)
    else if bignumLen n.toNat = 0 then .ok (.fixnum (long2fix 0))
    -- the short-circuit for one digit, `SIZEOF_BDIGIT <= SIZEOF_LONG`
    else if bignumLen n.toNat = 1 then .ok (ulong2num (rbUlongIsqrt n.toNat))
    else rbBigIsqrt n.toNat

/-! ## What `Integer.sqrt` returns -/

/-- `rb_ulong_isqrt` is the integer square root outside `[2 ^ 52, 2 ^ 53)`. -/
theorem rbUlongIsqrt_eq_sqrt {n : ℕ} (h : n < 2 ^ 52 ∨ 2 ^ 53 ≤ n) :
    rbUlongIsqrt n = Nat.sqrt n :=
  h.elim rbUlongIsqrt_of_lt rbUlongIsqrt_of_le

/-- **On a Fixnum below `2 ^ 52`, or from `2 ^ 53` on, `Integer.sqrt` returns the integer square
root**, as the canonical `Integer`. -/
theorem rbIntSIsqrt_fixnum {a : Fixnum} (h0 : 0 ≤ a.toInt) (h : a.toInt < 2 ^ 52 ∨ 2 ^ 53 ≤ a.toInt) :
    ∃ r, rbIntSIsqrt (.fixnum a.value) = .ok r ∧ Represents r (Nat.sqrt a.toInt.toNat) := by
  have hv : ¬a.value.toInt < 0 := by
    rw [Fixnum.toInt_value]
    omega
  -- `FIX2ULONG` of a non-negative Fixnum is its value
  have hmsb : (fix2long a.value).msb = false :=
    BitVec.msb_eq_false_iff_two_mul_lt.mpr (BitVec.toInt_pos_iff.mp h0)
  have hnat : (fix2long a.value).toNat = a.toInt.toNat :=
    (BitVec.toNat_toInt_of_msb _ hmsb).symm
  have hfix := fixableP_iff.mp a.fixableP_toInt
  have hsqrt : rbUlongIsqrt a.toInt.toNat = Nat.sqrt a.toInt.toNat :=
    rbUlongIsqrt_eq_sqrt (by omega)
  have hs : Nat.sqrt a.toInt.toNat < 2 ^ 62 := (Nat.sqrt_le_self _).trans_lt (by omega)
  refine ⟨_, by rw [rbIntSIsqrt, if_neg hv, hnat, hsqrt], ?_⟩
  rw [← BitVec.ofInt_natCast]
  refine represents_long2fix_of_eq (toInt_ofInt_of_fixableP ?_) ?_ <;>
    exact fixableP_iff.mpr ⟨by omega, by omega⟩

theorem rbUlongIsqrt_bug_input : rbUlongIsqrt 4503599761588224 = 67108865 := by
  have h := rbUlongIsqrt_sq_sub_one (k := 67108865) (by norm_num) (by norm_num)
  norm_num at h
  exact h

/-- `estimate_initial_sqrt` on `(2 ^ 52 + 2 ^ 27) * 2 ^ 34`: the top bits are
`2 ^ 52 + 2 ^ 27 = 67108865 ^ 2 - 1` with nothing below, their rounded root 67108865 is integral,
and the estimate `67108865 * 2 ^ 17` comes back as exact. -/
theorem estimateInitialSqrt_exact_input :
    estimateInitialSqrt (2 ^ 86 + 2 ^ 61) 3 = (67108865 * 2 ^ 17, false) := by
  have hr : estimateRshift (2 ^ 86 + 2 ^ 61) 3 = 2 := by decide
  have ht : estimateTop (2 ^ 86 + 2 ^ 61) 3 2 = (false, 67108865 ^ 2 - 1) := by decide
  rw [estimateInitialSqrt, hr, ht]
  dsimp only
  rw [sqrt_round_sq_sub_one (by norm_num) (by norm_num), estimateFinish, Int.ceil_natCast,
    Int.toNat_natCast, Binary64.round_natCast (by norm_num), if_pos rfl]
  decide

/-- `estimate_initial_sqrt` on `2 ^ 128 - 1`: the top bits are `2 ^ 52 - 1`, whose rounded root
`2 ^ 26 - 2 ^ -27` has ceiling `2 ^ 26`, and `2 ^ 26 << 38` wraps to 0 in 64 bits. -/
theorem estimateInitialSqrt_wrap_input : estimateInitialSqrt (2 ^ 128 - 1) 4 = (0, true) := by
  have hr : estimateRshift (2 ^ 128 - 1) 4 = 12 := by decide
  have ht : estimateTop (2 ^ 128 - 1) 4 12 = (true, 2 ^ 52 - 1) := by decide
  have hf : Binary64.sqrt (Binary64.round ((2 ^ 52 - 1 : ℕ) : ℚ)) = 67108864 - 1 / 134217728 := by
    rw [Binary64.round_natCast (by norm_num)]
    refine Binary64.sqrt_eq_of_near (Binary64.isFinite_natCast (by norm_num)) (by positivity)
      ⟨2 ^ 53 - 1, -27, by norm_num, by norm_num, by norm_num, by norm_num⟩ (k := 25) ?_ ?_ ?_ <;>
      norm_num [Binary64.ulp]
  have hc : ⌈(67108864 - 1 / 134217728 : ℚ)⌉ = 67108864 := by
    rw [Int.ceil_eq_iff]
    norm_num
  rw [estimateInitialSqrt, hr, ht]
  dsimp only
  rw [hf, estimateFinish, hc, show ((67108864 : ℤ).toNat : ℚ) = ((67108864 : ℕ) : ℚ) from rfl,
    Binary64.round_natCast (by norm_num), if_neg (by norm_num)]
  decide

/-- `Integer.sqrt` on `(2 ^ 26 + 1) ^ 2 - 1` (a Fixnum), `(2 ^ 52 + 2 ^ 27) * 2 ^ 34` (three digits)
and `2 ^ 128 - 1` (four digits). -/
theorem int_sqrt_misses_root :
    (rbIntSIsqrt (.fixnum (long2fix 4503599761588224#64)) = .ok (.fixnum (long2fix 67108865#64)) ∧
      Nat.sqrt 4503599761588224 = 67108864) ∧
    (rbIntSIsqrt (.bignum (2 ^ 86 + 2 ^ 61)) = .ok (.bignum (67108865 * 2 ^ 17)) ∧
      Nat.sqrt (2 ^ 86 + 2 ^ 61) = 67108865 * 2 ^ 17 - 1) ∧
    rbIntSIsqrt (.bignum (2 ^ 128 - 1)) = .error .divisorNotNormalized := by
  refine ⟨⟨?_, ?_⟩, ⟨?_, ?_⟩, ?_⟩
  · have hn : (fix2long (long2fix 4503599761588224#64)).toNat = 4503599761588224 := by decide
    rw [rbIntSIsqrt, if_neg (by decide), hn, rbUlongIsqrt_bug_input]
  · rw [show (4503599761588224 : ℕ) = 67108865 ^ 2 - 1 by norm_num]
    exact sqrt_sq_sub_one (by norm_num)
  · have hn : (2 ^ 86 + 2 ^ 61 : ℤ).toNat = 2 ^ 86 + 2 ^ 61 := by decide
    have hl : bignumLen (2 ^ 86 + 2 ^ 61) = 3 := by decide
    simp only [rbIntSIsqrt, hn, hl]
    rw [if_neg (by norm_num), if_neg (by norm_num), if_neg (by norm_num), rbBigIsqrt, hl,
      if_neg (by norm_num), estimateInitialSqrt_exact_input]
    push_cast
    rfl
  · refine (Nat.eq_sqrt'.mpr ⟨?_, ?_⟩).symm <;> norm_num
  · have hn : (2 ^ 128 - 1 : ℤ).toNat = 2 ^ 128 - 1 := by decide
    have hl : bignumLen (2 ^ 128 - 1) = 4 := by decide
    simp only [rbIntSIsqrt, hn, hl]
    rw [if_neg (by norm_num), if_neg (by norm_num), if_neg (by norm_num), rbBigIsqrt, hl,
      if_neg (by norm_num), estimateInitialSqrt_wrap_input]
    decide

end CRuby.Num
