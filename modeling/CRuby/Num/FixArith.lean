import CRuby.Num.Fixnum

/-!
# The Fixnum fast paths of `internal.h`

`rb_fix_plus_fix`, `rb_fix_minus_fix`, `rb_fix_mul_fix` and `rb_fix_divmod_fix`, with every
compile-time branch they have: which one a build takes is a `Build`, and each theorem holds for
all of them.

* With `__builtin_add_overflow`, the sum is taken on the tagged words, `x + ((long)y - 1)`, and
  an overflowed word is turned back into the true sum by `rb_overflowed_fix_to_int`
  (`toInt_rbOverflowedFixToInt`). The two functions are one shape, `fixAddSub`, applied to
  their own operation (`represents_fixAddSub`).
* `MUL_OVERFLOW_SIGNED_INTEGER_P` decides whether a product leaves `[min, max]` with truncating
  divisions only (`mulOverflowSignedIntegerP_iff`); with it or with the builtin,
  `MUL_OVERFLOW_FIXNUM_P` is exactly "the product is not fixable" (`mulOverflowFixnumP_iff`).
* `rb_fix_divmod_fix` corrects C's truncating `/` and `%` into Ruby's floored pair and treats
  `FIXNUM_MIN / -1`, the one quotient that is not fixable, apart (`represents_rbFixDivmodFix`).

Each result is the canonical `Integer` of the exact value (`Represents`), so every build
returns the same `VALUE` (`Represents.unique`).
-/

namespace CRuby.Num

open TwosComplement

/-- The compile-time branches of `internal.h` these functions take. -/
structure Build where
  /-- `HAVE_BUILTIN___BUILTIN_ADD_OVERFLOW` -/
  builtinAddOverflow : Bool
  /-- `HAVE_BUILTIN___BUILTIN_SUB_OVERFLOW` -/
  builtinSubOverflow : Bool
  /-- `DLONG` is defined: `int128_t` on LP64 -/
  dlong : Bool
  /-- `HAVE_BUILTIN___BUILTIN_MUL_OVERFLOW_P` -/
  builtinMulOverflowP : Bool
  deriving DecidableEq, Repr

/-! ## Addition and subtraction -/

/-- `rb_overflowed_fix_to_int`:
`(long)((unsigned long)(x >> 1) ^ (1LU << (SIZEOF_LONG * CHAR_BIT - 1)))`. -/
def rbOverflowedFixToInt (x : Long) : Long := x.sshiftRight 1 ^^^ (1 <<< 63)

/-- What `rb_fix_plus_fix` and `rb_fix_minus_fix` share. With the builtin, `op` is applied to
the tagged words, `(long)x op ((long)y - 1)`, which is the tagged result unless it overflows;
without it, to the untagged values, converted by `LONG2NUM`. -/
def fixAddSub (builtin : Bool) (op : Long → Long → Long) (overflowP : Long → Long → Bool)
    (x y : Value) : RInteger :=
  if builtin then
    let lz := op x (y - 1)
    if overflowP x (y - 1) then rbInt2big (rbOverflowedFixToInt lz) else .fixnum lz
  else long2num (op (fix2long x) (fix2long y))

/-- `rb_fix_plus_fix` -/
def rbFixPlusFix (bld : Build) (x y : Value) : RInteger :=
  fixAddSub bld.builtinAddOverflow (· + ·) BitVec.saddOverflow x y

/-- `rb_fix_minus_fix` -/
def rbFixMinusFix (bld : Build) (x y : Value) : RInteger :=
  fixAddSub bld.builtinSubOverflow (· - ·) BitVec.ssubOverflow x y

/-! ## Multiplication -/

/-- `MUL_OVERFLOW_SIGNED_INTEGER_P(a, b, min, max)`, C's `/` truncating. -/
def mulOverflowSignedIntegerP (a b min max : ℤ) : Bool :=
  if a = 0 then false
  else if a = -1 then b < -max
  else if a > 0 then (if b > 0 then max.tdiv a < b else min.tdiv a > b)
  else (if b > 0 then min.tdiv a < b else max.tdiv a > b)

/-- `MUL_OVERFLOW_FIXNUM_P`: `__builtin_mul_overflow_p` into a bit-field of
`SIZEOF_LONG * CHAR_BIT - 1` bits where the builtin exists, the portable macro elsewhere. -/
def mulOverflowFixnumP (bld : Build) (a b : Long) : Bool :=
  if bld.builtinMulOverflowP then (BitVec.ofInt 63 (a.toInt * b.toInt)).toInt != a.toInt * b.toInt
  else mulOverflowSignedIntegerP a.toInt b.toInt fixnumMin fixnumMax

/-- `rb_big_mul` of two Bignums: `bignorm(bigmul0(x, y))`, the product `bigmul0` computes taken
by its value. -/
def rbBigMul (x y : RInteger) : RInteger := bignorm (.bignum (x.val * y.val))

/-- `DL2NUM`: `RB_FIXABLE(x) ? LONG2FIX(x) : rb_int128t2big(x)`, the `LONG2FIX` truncating the
`int128_t` to a `VALUE`. -/
def dl2num (x : BitVec 128) : RInteger :=
  if fixableP x.toInt then .fixnum (long2fix (x.setWidth 64)) else .bignum x.toInt

/-- `rb_fix_mul_fix` -/
def rbFixMulFix (bld : Build) (x y : Value) : RInteger :=
  let lx := fix2long x
  let ly := fix2long y
  if bld.dlong then dl2num (lx.signExtend 128 * ly.signExtend 128)
  else if mulOverflowFixnumP bld lx ly then rbBigMul (rbInt2big lx) (rbInt2big ly)
  else .fixnum (long2fix (lx * ly))

/-! ## Division -/

/-- `rb_fix_divmod_fix`: the quotient and the modulo, both of which the source writes through
pointers that may be `NULL`. -/
def rbFixDivmodFix (a b : Value) : RInteger × RInteger :=
  let x := fix2long a
  let y := fix2long b
  if x.toInt = fixnumMin ∧ y = -1 then
    (long2num (BitVec.ofInt 64 (-fixnumMin)), .fixnum (long2fix 0))
  else
    let div := x.sdiv y
    let mod := x.srem y
    -- `y > 0 ? mod < 0 : mod > 0`
    if (if (0 : Long).slt y then mod.slt 0 else (0 : Long).slt mod) then
      (.fixnum (long2fix (div - 1)), .fixnum (long2fix (mod + y)))
    else (.fixnum (long2fix div), .fixnum (long2fix mod))

/-! ## Ranges -/

theorem Fixnum.toInt_bounds (a : Fixnum) : -2 ^ 62 ≤ a.toInt ∧ a.toInt < 2 ^ 62 :=
  fixableP_iff.mp a.fixableP_toInt

/-- A number in the range of `long` is its own wrap. -/
theorem bmod_eq_self_of_long {n : ℤ} (hlo : -2 ^ 63 ≤ n) (hhi : n < 2 ^ 63) :
    n.bmod (2 ^ 64) = n :=
  Int.bmod_eq_of_le (by omega) (by omega)

/-! ## Addition and subtraction -/

/-- **`rb_overflowed_fix_to_int` recovers the true result**: if the tagged result `2 * e + 1`
left the range of `long` and was wrapped into `lz`, shifting `lz` right and flipping the sign
bit gives `e` back. -/
theorem toInt_rbOverflowedFixToInt {lz : Long} {e : ℤ}
    (hlz : lz.toInt = (2 * e + 1).bmod (2 ^ 64))
    (hover : 2 * e + 1 < -2 ^ 63 ∨ 2 ^ 63 ≤ 2 * e + 1) (hlo : -2 ^ 63 ≤ e) (hhi : e < 2 ^ 63) :
    (rbOverflowedFixToInt lz).toInt = e := by
  have hmsb : (1 <<< 63 : Long) = BitVec.intMin 64 := by decide
  rw [rbOverflowedFixToInt, hmsb, toInt_xor_intMin, toInt_sshiftRight_one, hlz, Int.bmod_def]
  split_ifs <;> omega

variable (exact : ℤ → ℤ → ℤ) {op : Long → Long → Long} {overflowP : Long → Long → Bool}

/-- **The shared shape is exact**: for an operation that wraps its exact result, whose overflow
test is exact, that is linear enough for tagging to commute with it, and that does not leave
`long` on Fixnum values, both branches return the canonical `Integer` of the exact result. -/
theorem represents_fixAddSub
    (hop : ∀ u v : Long, (op u v).toInt = (exact u.toInt v.toInt).bmod (2 ^ 64))
    (hov : ∀ u v : Long, overflowP u v = true ↔
      exact u.toInt v.toInt < -2 ^ 63 ∨ 2 ^ 63 ≤ exact u.toInt v.toInt)
    (htag : ∀ a b, exact (2 * a + 1) (2 * b) = 2 * exact a b + 1)
    (hrange : ∀ a b, -2 ^ 62 ≤ a → a < 2 ^ 62 → -2 ^ 62 ≤ b → b < 2 ^ 62 →
      -2 ^ 63 ≤ exact a b ∧ exact a b < 2 ^ 63)
    (builtin : Bool) (x y : Fixnum) :
    Represents (fixAddSub builtin op overflowP x.value y.value) (exact x.toInt y.toInt) := by
  have hx := x.toInt_bounds
  have hy := y.toInt_bounds
  have he := hrange _ _ hx.1 hx.2 hy.1 hy.2
  unfold fixAddSub
  cases builtin with
  | false =>
    -- `LONG2NUM` of the untagged result, which fits a `long`
    rw [if_neg Bool.false_ne_true]
    have hval : (op (fix2long x.value) (fix2long y.value)).toInt = exact x.toInt y.toInt := by
      rw [hop]
      exact bmod_eq_self_of_long he.1 he.2
    have hrep := represents_long2num (op (fix2long x.value) (fix2long y.value))
    rwa [hval] at hrep
  | true =>
    -- `(long)y - 1` drops the tag of `y` without overflow
    rw [if_pos rfl]
    have hy1 : (y.value - 1).toInt = 2 * y.toInt := by
      rw [BitVec.toInt_sub, y.toInt_value, show (1 : Long).toInt = 1 from rfl, Int.add_sub_cancel]
      apply bmod_eq_self_of_long <;> omega
    have hlz : (op x.value (y.value - 1)).toInt = (2 * exact x.toInt y.toInt + 1).bmod (2 ^ 64) := by
      rw [hop, x.toInt_value, hy1, htag]
    dsimp only
    split
    · -- the tagged result overflowed: `rb_int2big` of the recovered value
      rename_i hover
      rw [hov, x.toInt_value, hy1, htag] at hover
      rw [rbInt2big, toInt_rbOverflowedFixToInt hlz hover he.1 he.2]
      exact represents_bignum (by rw [Bool.eq_false_iff, ne_eq, fixableP_iff]; omega)
    · -- no overflow: the word computed is the tagged result itself
      rename_i hnover
      rw [hov, x.toInt_value, hy1, htag] at hnover
      have hword : (op x.value (y.value - 1)).toInt = 2 * exact x.toInt y.toInt + 1 := by
        rw [hlz]
        apply bmod_eq_self_of_long <;> omega
      refine ⟨?_, fixnumP_of_toInt hword⟩
      rw [RInteger.val, toInt_fix2long, hword]
      omega

/-- `rb_fix_plus_fix` returns the canonical `Integer` of the sum, in every build. -/
theorem represents_rbFixPlusFix (bld : Build) (x y : Fixnum) :
    Represents (rbFixPlusFix bld x.value y.value) (x.toInt + y.toInt) :=
  represents_fixAddSub (· + ·) (fun u v => BitVec.toInt_add u v)
    (fun u v => by simp [BitVec.saddOverflow]; omega) (fun a b => by omega)
    (fun a b _ _ _ _ => by omega) _ x y

/-- `rb_fix_minus_fix` returns the canonical `Integer` of the difference, in every build. -/
theorem represents_rbFixMinusFix (bld : Build) (x y : Fixnum) :
    Represents (rbFixMinusFix bld x.value y.value) (x.toInt - y.toInt) :=
  represents_fixAddSub (· - ·) (fun u v => BitVec.toInt_sub)
    (fun u v => by simp [BitVec.ssubOverflow]; omega) (fun a b => by omega)
    (fun a b _ _ _ _ => by omega) _ x y

/-! ## Multiplication -/

/-- **`MUL_OVERFLOW_SIGNED_INTEGER_P` is exact**: when `min ≤ 0 ≤ max ≤ -min` and `b ≤ max`, it
answers whether `a * b` leaves `[min, max]`, with one truncating division in each sign case. -/
theorem mulOverflowSignedIntegerP_iff {a b min max : ℤ} (hmin : min ≤ 0) (hmax : 0 ≤ max)
    (hmm : max ≤ -min) (hb : b ≤ max) :
    mulOverflowSignedIntegerP a b min max = true ↔ a * b < min ∨ max < a * b := by
  unfold mulOverflowSignedIntegerP
  split_ifs with h0 h1 hpos hbpos hbpos
  · -- `a == 0`
    subst h0
    simp only [Int.zero_mul, false_iff]
    omega
  · -- `a == -1`: only `b == min` overflows, and `-min > max`
    subst h1
    rw [decide_eq_true_iff]
    omega
  · -- `a > 0`, `b > 0`: above `max` exactly when `max / a < b`
    have hab := Int.mul_pos hpos hbpos
    rw [decide_eq_true_iff, tdiv_lt_iff_lt_mul hmax hpos, Int.mul_comm b a]
    omega
  · -- `a > 0`, `b <= 0`: below `min` exactly when `min / a > b`
    have hab := Int.mul_nonpos_of_nonneg_of_nonpos hpos.le (Int.not_lt.mp hbpos)
    rw [decide_eq_true_iff, gt_iff_lt, lt_tdiv_iff_mul_lt hmin hpos, Int.mul_comm b a]
    omega
  · -- `a < 0`, `b > 0`: below `min` exactly when `min / a < b`, dividing by `-a`
    have hneg : 0 < -a := by omega
    have hab : a * b < 0 := Int.mul_neg_of_neg_of_pos (by omega) hbpos
    have h := lt_tdiv_iff_mul_lt (b := -b) hmin hneg
    rw [Int.neg_mul_neg, Int.mul_comm b a] at h
    rw [decide_eq_true_iff, show min.tdiv a = -(min.tdiv (-a)) by rw [← Int.tdiv_neg, Int.neg_neg]]
    omega
  · -- `a < 0`, `b <= 0`: above `max` exactly when `max / a > b`, dividing by `-a`
    have hneg : 0 < -a := by omega
    have hab : 0 ≤ a * b := Int.mul_nonneg_of_nonpos_of_nonpos (by omega) (Int.not_lt.mp hbpos)
    have h := tdiv_lt_iff_lt_mul (b := -b) hmax hneg
    rw [Int.neg_mul_neg, Int.mul_comm b a] at h
    rw [decide_eq_true_iff, gt_iff_lt,
      show max.tdiv a = -(max.tdiv (-a)) by rw [← Int.tdiv_neg, Int.neg_neg]]
    omega

/-- **`MUL_OVERFLOW_FIXNUM_P` is exact**, in both builds, when `b` is a Fixnum's value: it
answers whether the product is not fixable. -/
theorem mulOverflowFixnumP_iff (bld : Build) {a b : Long} (hb : fixableP b.toInt = true) :
    mulOverflowFixnumP bld a b = true ↔ fixableP (a.toInt * b.toInt) = false := by
  rw [fixableP_iff] at hb
  rw [Bool.eq_false_iff, ne_eq, fixableP_iff]
  unfold mulOverflowFixnumP
  split
  · -- the builtin: the product does not fit the 63-bit field
    rw [bne_iff_ne, ne_eq, BitVec.toInt_ofInt]
    generalize a.toInt * b.toInt = p
    rw [Int.bmod_def]
    split_ifs <;> omega
  · rw [mulOverflowSignedIntegerP_iff (by rw [fixnumMin_eq]; omega) (by rw [fixnumMax_eq]; omega)
      (by rw [fixnumMin_eq, fixnumMax_eq]; omega) (by rw [fixnumMax_eq]; omega),
      fixnumMin_eq, fixnumMax_eq]
    omega

theorem represents_dl2num (p : BitVec 128) : Represents (dl2num p) p.toInt := by
  unfold dl2num
  split
  · rename_i h
    have hw : (p.setWidth 64).toInt = p.toInt := by
      have hp := fixableP_iff.mp h
      rw [toInt_setWidth_eq_bmod p (by decide)]
      apply bmod_eq_self_of_long <;> omega
    have hrep := represents_long2fix (i := p.setWidth 64) (by rwa [hw])
    rwa [hw] at hrep
  · rename_i h
    exact represents_bignum (Bool.eq_false_iff.mpr h)

/-- `rb_fix_mul_fix` returns the canonical `Integer` of the product, in every build. -/
theorem represents_rbFixMulFix (bld : Build) (x y : Fixnum) :
    Represents (rbFixMulFix bld x.value y.value) (x.toInt * y.toInt) := by
  unfold rbFixMulFix
  dsimp only
  split
  · -- `DLONG`: the product of two `long`s is exact in 128 bits
    have hp := toInt_signExtend_mul_signExtend (fix2long x.value) (fix2long y.value)
      (show 2 * 64 ≤ 128 by decide)
    have hrep := represents_dl2num
      ((fix2long x.value).signExtend 128 * (fix2long y.value).signExtend 128)
    rwa [hp] at hrep
  · split
    · -- the product overflows: `rb_big_mul` of the two Bignums, normalized
      exact represents_bignorm _
    · -- no overflow: the `long` product is exact and fixable
      rename_i hno
      have hfix : fixableP (x.toInt * y.toInt) = true := by
        rw [mulOverflowFixnumP_iff bld y.fixableP_toInt] at hno
        exact Bool.not_eq_false _ |>.mp hno
      have hprod : (fix2long x.value * fix2long y.value).toInt = x.toInt * y.toInt := by
        have h := fixableP_iff.mp hfix
        unfold Fixnum.toInt at h ⊢
        rw [BitVec.toInt_mul]
        apply bmod_eq_self_of_long <;> omega
      have hrep := represents_long2fix (i := fix2long x.value * fix2long y.value) (by rwa [hprod])
      rwa [hprod] at hrep

/-! ## Division -/

/-- The quotient C's `/` gives on Fixnum values outside `FIXNUM_MIN / -1` is fixable, and at
most half the dividend when the remainder is not zero (the divisor is then not `±1`). -/
theorem fixableP_tdiv {a b : ℤ} (ha : -2 ^ 62 ≤ a ∧ a < 2 ^ 62) (hb0 : b ≠ 0)
    (hnot : ¬(a = -2 ^ 62 ∧ b = -1)) :
    fixableP (a.tdiv b) = true ∧ (a.tmod b ≠ 0 → 2 * (a.tdiv b).natAbs ≤ a.natAbs) := by
  have hle := Int.natAbs_tdiv_le_natAbs a b
  have hhalf : a.tmod b ≠ 0 → 2 * (a.tdiv b).natAbs ≤ a.natAbs := by
    intro hr
    apply two_mul_natAbs_tdiv_le
    -- a divisor `±1` leaves no remainder
    rcases (by omega : b = 1 ∨ b = -1 ∨ 2 ≤ b.natAbs) with h | h | h
    · subst h
      exact absurd (Int.tmod_one a) hr
    · subst h
      exact absurd (by rw [Int.tmod_neg, Int.tmod_one]) hr
    · exact h
  refine ⟨?_, hhalf⟩
  rw [fixableP_iff]
  by_cases hb1 : b = -1
  · -- `a / -1` is `-a`, fixable since `a` is not `FIXNUM_MIN`
    subst hb1
    rw [show (-1 : ℤ) = -1 from rfl, Int.tdiv_neg, Int.tdiv_one]
    omega
  · by_cases hb2 : b = 1
    · subst hb2
      rw [Int.tdiv_one]
      omega
    · have hq := two_mul_natAbs_tdiv_le (a := a) (b := b) (by omega)
      omega

/-- **`rb_fix_divmod_fix` is Ruby's floored `divmod`**: for a nonzero Fixnum divisor (its callers
raise `ZeroDivisionError` before calling it), it returns the canonical `Integer`s of the floored
quotient and of the modulo, including the Bignum `-FIXNUM_MIN` for `FIXNUM_MIN / -1`. -/
theorem represents_rbFixDivmodFix (x y : Fixnum) (hy : y.toInt ≠ 0) :
    Represents (rbFixDivmodFix x.value y.value).1 (x.toInt.fdiv y.toInt) ∧
      Represents (rbFixDivmodFix x.value y.value).2 (x.toInt.fmod y.toInt) := by
  have hx := x.toInt_bounds
  have hyb := y.toInt_bounds
  have hm1 : (-1 : Long).toInt = -1 := by decide
  unfold rbFixDivmodFix
  dsimp only
  split
  · -- `FIXNUM_MIN / -1`: the quotient `-FIXNUM_MIN` is not fixable and goes through `LONG2NUM`
    rename_i hmin
    have hxv : x.toInt = -2 ^ 62 := hmin.1.trans fixnumMin_eq
    have hyv : y.toInt = -1 := by rw [Fixnum.toInt, hmin.2, hm1]
    rw [hxv, hyv]
    have hq : (BitVec.ofInt 64 (-fixnumMin)).toInt = (-2 ^ 62 : ℤ).fdiv (-1) := by decide
    have hr : (0 : Long).toInt = (-2 ^ 62 : ℤ).fmod (-1) := by decide
    refine ⟨?_, represents_long2fix_of_eq hr (by decide)⟩
    have hrep := represents_long2num (BitVec.ofInt 64 (-fixnumMin))
    rwa [hq] at hrep
  · rename_i hnot
    have hnot' : ¬(x.toInt = -2 ^ 62 ∧ y.toInt = -1) := by
      rintro ⟨h1, h2⟩
      exact hnot ⟨h1.trans fixnumMin_eq.symm, BitVec.eq_of_toInt_eq (h2.trans hm1.symm)⟩
    -- C's `/` and `%` on `long`s are the truncating pair, exactly
    have hxmin : fix2long x.value ≠ BitVec.intMin 64 := by
      intro h
      have h' := congrArg BitVec.toInt h
      rw [BitVec.toInt_intMin_of_pos (by decide)] at h'
      unfold Fixnum.toInt at hx
      omega
    have hq : ((fix2long x.value).sdiv (fix2long y.value)).toInt = x.toInt.tdiv y.toInt :=
      BitVec.toInt_sdiv_of_ne_or_ne _ _ (Or.inl hxmin)
    have hr : ((fix2long x.value).srem (fix2long y.value)).toInt = x.toInt.tmod y.toInt :=
      BitVec.toInt_srem _ _
    obtain ⟨hqfix, hhalf⟩ := fixableP_tdiv hx hy hnot'
    have hqb := fixableP_iff.mp hqfix
    have hrb := natAbs_tmod_lt x.toInt hy
    have hadj := fdiv_fmod_of_tdiv_tmod (a := x.toInt) hy
    have hy' : (fix2long y.value).toInt = y.toInt := rfl
    -- the correction test, on numbers
    have hcond : (if (0 : Long).slt (fix2long y.value)
        then ((fix2long x.value).srem (fix2long y.value)).slt 0
        else (0 : Long).slt ((fix2long x.value).srem (fix2long y.value))) =
        decide (if 0 < y.toInt then x.toInt.tmod y.toInt < 0 else 0 < x.toInt.tmod y.toInt) := by
      simp only [BitVec.slt_eq_decide, hr, hy', show (0 : Long).toInt = 0 from rfl]
      by_cases hpos : 0 < y.toInt
      · simp only [hpos, decide_true, if_true]
      · simp only [hpos, decide_false, if_false, Bool.false_eq_true]
    by_cases hc : if 0 < y.toInt then x.toInt.tmod y.toInt < 0 else 0 < x.toInt.tmod y.toInt
    · -- corrected: one less for the quotient, the divisor added to the remainder
      rw [hcond, if_pos (decide_eq_true hc)]
      rw [if_pos hc, Prod.mk.injEq] at hadj
      have hr0 : x.toInt.tmod y.toInt ≠ 0 := by split_ifs at hc <;> omega
      have hq2 := hhalf hr0
      refine ⟨represents_long2fix_of_eq ?_ ?_, represents_long2fix_of_eq ?_ ?_⟩
      · rw [BitVec.toInt_sub, hq, show (1 : Long).toInt = 1 from rfl, ← hadj.1]
        apply bmod_eq_self_of_long <;> omega
      · rw [← hadj.1, fixableP_iff]
        omega
      · rw [BitVec.toInt_add, hr, hy', ← hadj.2]
        apply bmod_eq_self_of_long <;> omega
      · rw [← hadj.2, fixableP_iff]
        split_ifs at hc <;> omega
    · rw [hcond, if_neg (fun h => hc (of_decide_eq_true h))]
      rw [if_neg hc, Prod.mk.injEq] at hadj
      refine ⟨represents_long2fix_of_eq (hq.trans hadj.1) (hadj.1 ▸ hqfix),
        represents_long2fix_of_eq (hr.trans hadj.2) ?_⟩
      rw [← hadj.2, fixableP_iff]
      omega

/-! ## The fast paths together -/

/-- The portable addition path and the builtin one return the same `VALUE`. -/
theorem rbFixPlusFix_eq_long2num (bld : Build) (x y : Fixnum) :
    rbFixPlusFix bld x.value y.value = long2num (fix2long x.value + fix2long y.value) := by
  have hsum : (fix2long x.value + fix2long y.value).toInt = x.toInt + y.toInt := by
    have hx := x.toInt_bounds
    have hy := y.toInt_bounds
    unfold Fixnum.toInt at hx hy
    rw [BitVec.toInt_add]
    apply bmod_eq_self_of_long <;> omega
  have hrep := represents_long2num (fix2long x.value + fix2long y.value)
  rw [hsum] at hrep
  exact (represents_rbFixPlusFix bld x y).unique hrep

/-- Every build multiplies two Fixnums into the same `VALUE`. -/
theorem rbFixMulFix_eq_of_build (bld bld' : Build) (x y : Fixnum) :
    rbFixMulFix bld x.value y.value = rbFixMulFix bld' x.value y.value :=
  (represents_rbFixMulFix bld x y).unique (represents_rbFixMulFix bld' x y)

/-- **The Fixnum fast paths are exact**: in every build, `rb_fix_plus_fix`, `rb_fix_minus_fix`
and `rb_fix_mul_fix` return the canonical `Integer` (a Fixnum exactly when it is fixable, else a
Bignum) of the sum, difference and product of two Fixnums, and `rb_fix_divmod_fix` by a nonzero
Fixnum returns those of the floored quotient and of the modulo, which satisfy Ruby's `divmod`
contract. -/
theorem fixnum_fast_paths_exact (bld : Build) (x y : Fixnum) :
    Represents (rbFixPlusFix bld x.value y.value) (x.toInt + y.toInt) ∧
    Represents (rbFixMinusFix bld x.value y.value) (x.toInt - y.toInt) ∧
    Represents (rbFixMulFix bld x.value y.value) (x.toInt * y.toInt) ∧
    (y.toInt ≠ 0 →
      Represents (rbFixDivmodFix x.value y.value).1 (x.toInt.fdiv y.toInt) ∧
      Represents (rbFixDivmodFix x.value y.value).2 (x.toInt.fmod y.toInt) ∧
      x.toInt = x.toInt.fdiv y.toInt * y.toInt + x.toInt.fmod y.toInt ∧
      (x.toInt.fmod y.toInt = 0 ∨ (x.toInt.fmod y.toInt).sign = y.toInt.sign) ∧
      (x.toInt.fmod y.toInt).natAbs < y.toInt.natAbs) := by
  refine ⟨represents_rbFixPlusFix bld x y, represents_rbFixMinusFix bld x y,
    represents_rbFixMulFix bld x y, fun hy => ?_⟩
  obtain ⟨hdiv, hmod⟩ := represents_rbFixDivmodFix x y hy
  exact ⟨hdiv, hmod, fdiv_fmod_spec hy⟩

theorem fixnum_fast_paths_exact_divmod :
    (Fixnum.ofLong (-2)).toInt ≠ 0 ∧
      Represents (rbFixDivmodFix (Fixnum.ofLong 7).value (Fixnum.ofLong (-2)).value).1
        ((Fixnum.ofLong 7).toInt.fdiv (Fixnum.ofLong (-2)).toInt) := by
  have hy : (Fixnum.ofLong (-2)).toInt ≠ 0 := by decide
  exact ⟨hy, ((fixnum_fast_paths_exact ⟨true, true, true, true⟩ (Fixnum.ofLong 7)
    (Fixnum.ofLong (-2))).2.2.2 hy).1⟩

end CRuby.Num
