import CRuby.Num.Fixnum
import CRuby.Lib.BinaryPow
import Mathlib.Data.ZMod.Basic

/-!
# `Integer#pow(b, m)` (bignum.c)

`rb_int_powm(a, b, m)` checks that `b` is not negative, takes `|m|` and remembers the sign of
`m` in `nega_flg`, reduces `a` modulo `|m|`, and hands the rest to one of three helpers:
`int_pow_tmp1` when `|m|` is a Fixnum up to `HALF_LONG_MSB` (`2 ^ 31` on LP64), `int_pow_tmp2`
for a larger Fixnum and `int_pow_tmp3` for a Bignum. Each runs right-to-left binary
exponentiation (`BinaryPow`), first over the bits of a Bignum exponent and then over a `long`,
and each keeps its accumulator in its own way: `long`s multiplied below `2 ^ 62`, a `DLONG`
product, or `VALUE`s. At the end a non-zero result is moved into `(m, 0]` for a negative `m`.

Integers are modelled by their values; `FIXNUM_P` is `fixableP` of the value. The compile-time
branches are a `PowBuild`.

What holds and what does not (`rbIntPowm`):

* the loops compute `x ^ y` modulo `|m|`, whatever they multiply with, and so every helper that
  returns what its loops computed is right (`rbIntPowm_of_le_halfLongMsb`,
  `rbIntPowm_of_not_dlong`, `rbIntPowm_of_not_useGmp`);
* `int_pow_tmp1` starts from `tmp = 1` and returns it untouched for `b = 0`, also for `m = 1`,
  where the answer is 0 (`rbIntPowm_zero_one`);
* with `DLONG`, `int_pow_tmp2` runs its loops on `tmp2` and returns `tmp`, which is still 1
  (`rbIntPowm_of_dlong`);
* with GMP, `int_pow_tmp3` tests `BIGNUM_POSITIVE_P(z)`, the sign of a fresh Bignum, which holds
  for 0 too, so a result 0 for a negative `m` becomes `m` (`rbIntPowm_useGmp_of_dvd`).
-/

namespace CRuby.Num

/-- The compile-time branches of `bignum.c` that `Integer#pow(b, m)` takes. -/
structure PowBuild where
  /-- `DLONG` is defined: `long long` where it is twice a `long`, `int128_t` on LP64 -/
  dlong : Bool
  /-- `USE_GMP` -/
  useGmp : Bool
  deriving DecidableEq, Repr

/-- `HALF_LONG_MSB` on LP64: `(SIGNED_VALUE)1 << ((SIZEOF_LONG * CHAR_BIT - 1) / 2)`. -/
def halfLongMsb : ℤ := 2 ^ 31

/-- `rb_int_modulo`: Ruby's `%`, floored. -/
def rbIntModulo (x y : ℤ) : ℤ := x.fmod y

/-- The exceptions `rb_int_powm` raises on integer arguments. -/
inductive PowmError where
  /-- `rb_raise(rb_eRangeError, msg)` -/
  | rangeError (msg : String)
  /-- `rb_num_zerodiv()` -/
  | zeroDivError
  deriving DecidableEq, Repr

/-! ## The loops -/

section Loops

variable {α : Type*}

/-- The first loop of the three helpers: while the exponent is a Bignum, one turn on its low
bit and `y >> 1`. Returns the accumulator, the base and what is left of the exponent. -/
def powBigLoop (mul : α → α → α) (tmp xx : α) (y : ℕ) : α × α × ℕ :=
  if h : fixableP y then (tmp, xx, y)
  else
    have : 0 < y := by
      rw [fixableP_iff] at h
      omega
    powBigLoop mul (BinaryPow.step mul y tmp xx).1 (BinaryPow.step mul y tmp xx).2 (y / 2)
termination_by y
decreasing_by omega

/-- Both loops: the Bignum bits, then `for (yy = FIX2LONG(y); yy; yy >>= 1L)`. Returns the
accumulator and the base. -/
def powLoops (mul : α → α → α) (tmp xx : α) (y : ℕ) : α × α :=
  BinaryPow.loop mul (powBigLoop mul tmp xx y).1 (powBigLoop mul tmp xx y).2.1
    (powBigLoop mul tmp xx y).2.2

/-- The two loops are one binary exponentiation, cut where the exponent becomes a Fixnum. -/
theorem powLoops_eq_loop (mul : α → α → α) (tmp xx : α) (y : ℕ) :
    powLoops mul tmp xx y = BinaryPow.loop mul tmp xx y := by
  unfold powLoops
  fun_induction powBigLoop mul tmp xx y with
  | case1 tmp xx y h => rfl
  | case2 tmp xx y h hy ih =>
    rw [ih, BinaryPow.loop_of_ne_zero (Nat.pos_iff_ne_zero.mp hy)]

end Loops

/-! ## The helpers and `rb_int_powm` -/

/-- `int_pow_tmp1`: `long` arithmetic, `(tmp * xx) % mm` with C's truncating `%`. -/
def intPowTmp1 (x : ℤ) (y : ℕ) (mm : ℤ) (negaFlg : Bool) : ℤ :=
  let tmp := (powLoops (fun a b => (a * b).tmod mm) 1 x y).1
  if negaFlg ∧ tmp ≠ 0 then tmp - mm else tmp

/-- `int_pow_tmp2`. -/
def intPowTmp2 (dlong : Bool) (x : ℤ) (y : ℕ) (mm : ℤ) (negaFlg : Bool) : ℤ :=
  -- `MUL_MODULO`: `(long)(((DLONG)a * (DLONG)b) % c)`, or without `DLONG`
  -- `rb_int_modulo(rb_fix_mul_fix(a, b), c)`
  let mulModulo (a b : ℤ) : ℤ := if dlong then (a * b).tmod mm else rbIntModulo (a * b) mm
  let tmp2 := (powLoops mulModulo 1 x y).1
  -- `tmp = FIX2LONG(tmp2)` is compiled only `#ifndef DLONG`; with it `tmp` keeps its `1L`
  let tmp : ℤ := if dlong then 1 else tmp2
  if negaFlg ∧ tmp ≠ 0 then tmp - mm else tmp

/-- `int_pow_tmp3`, for a Bignum modulus `m`. -/
def intPowTmp3 (useGmp : Bool) (x : ℤ) (y : ℕ) (m : ℤ) (negaFlg : Bool) : ℤ :=
  if useGmp then
    -- `mpz_powm` into a fresh `bignew(zn, 1)`; `BIGNUM_POSITIVE_P(z)` is its sign, positive
    -- also when the value is 0
    let z := x ^ y % m
    if negaFlg then z - m else z
  else
    let tmp := (powLoops (fun a b => rbIntModulo (a * b) m) 1 x y).1
    -- `nega_flg && RTEST(rb_funcall(tmp, rb_intern("positive?"), 0))`
    if negaFlg ∧ 0 < tmp then tmp - m else tmp

/-- `rb_int_powm(a, b, m)` for Integers `a`, `b` and `m`: `a.pow(b, m)`. -/
def rbIntPowm (bld : PowBuild) (a b m : ℤ) : Except PowmError ℤ :=
  if b < 0 then
    .error (.rangeError
      "Integer#pow() 1st argument cannot be negative when 2nd argument specified")
  else
    let negaFlg := decide (m < 0)
    let m := if m < 0 then -m else m
    if ¬0 < m then .error .zeroDivError
    else if fixableP m then
      if m ≤ halfLongMsb then .ok (intPowTmp1 (rbIntModulo a m) b.toNat m negaFlg)
      else .ok (intPowTmp2 bld.dlong (rbIntModulo a m) b.toNat m negaFlg)
    else .ok (intPowTmp3 bld.useGmp (rbIntModulo a m) b.toNat m negaFlg)

/-! ## Residues -/

/-- C's truncating `%` leaves the residue. -/
theorem cast_tmod (t mm : ℤ) : ((t.tmod mm : ℤ) : ZMod mm.natAbs) = t := by
  have hmm : ((mm : ℤ) : ZMod mm.natAbs) = 0 :=
    (ZMod.intCast_zmod_eq_zero_iff_dvd mm mm.natAbs).mpr Int.natAbs_dvd_self
  rw [Int.tmod_def]
  push_cast
  rw [hmm, zero_mul, sub_zero]

/-- Ruby's floored `%` leaves the residue. -/
theorem cast_fmod (t mm : ℤ) : ((t.fmod mm : ℤ) : ZMod mm.natAbs) = t := by
  have hmm : ((mm : ℤ) : ZMod mm.natAbs) = 0 :=
    (ZMod.intCast_zmod_eq_zero_iff_dvd mm mm.natAbs).mpr Int.natAbs_dvd_self
  rw [Int.fmod_def]
  push_cast
  rw [hmm, zero_mul, sub_zero]

theorem isMulHom_tmod (mm : ℤ) :
    BinaryPow.IsMulHom (fun a : ℤ => (a : ZMod mm.natAbs)) (fun a b => (a * b).tmod mm) :=
  fun a b => by
    show (((a * b).tmod mm : ℤ) : ZMod mm.natAbs) = a * b
    rw [cast_tmod, Int.cast_mul]

theorem isMulHom_fmod (mm : ℤ) :
    BinaryPow.IsMulHom (fun a : ℤ => (a : ZMod mm.natAbs)) (fun a b => rbIntModulo (a * b) mm) :=
  fun a b => by
    show ((rbIntModulo (a * b) mm : ℤ) : ZMod mm.natAbs) = a * b
    rw [rbIntModulo, cast_fmod, Int.cast_mul]

/-- A residue in `[0, mm)` is the remainder. -/
theorem eq_emod_of_cast_eq {r t mm : ℤ} (hmm : 0 < mm) (h0 : 0 ≤ r) (h1 : r < mm)
    (hc : (r : ZMod mm.natAbs) = t) : r = t % mm := by
  rw [ZMod.intCast_eq_intCast_iff', Int.natAbs_of_nonneg hmm.le, Int.emod_eq_of_lt h0 h1] at hc
  exact hc

/-- Ruby's `%` by a negative `-mm` from the remainder by `mm`: a non-zero remainder moves into
`(-mm, 0]`. -/
theorem fmod_neg_eq (t : ℤ) {mm : ℤ} (hmm : 0 < mm) :
    t.fmod (-mm) = if t % mm ≠ 0 then t % mm - mm else t % mm := by
  have hdvd : -mm ∣ t ↔ t % mm = 0 := Int.neg_dvd.trans Int.dvd_iff_emod_eq_zero
  have hneg : ¬0 ≤ -mm := by omega
  rw [Int.fmod_eq_emod, Int.emod_neg]
  by_cases h : t % mm = 0
  · rw [if_pos (Or.inr (hdvd.mpr h)), if_neg (not_not.mpr h), add_zero]
  · rw [if_neg (not_or.mpr ⟨hneg, mt hdvd.mp h⟩), if_pos h, sub_eq_add_neg]

/-! ## What the loops compute -/

/-- **The loops compute `x ^ y` modulo `mm`**, whatever product modulo `mm` they use. -/
theorem cast_powLoops {mul : ℤ → ℤ → ℤ} {mm : ℤ}
    (hf : BinaryPow.IsMulHom (fun a : ℤ => (a : ZMod mm.natAbs)) mul) (x : ℤ) (y : ℕ) :
    ((powLoops mul 1 x y).1 : ZMod mm.natAbs) = (x ^ y : ℤ) := by
  rw [powLoops_eq_loop]
  have h : ((BinaryPow.loop mul 1 x y).1 : ZMod mm.natAbs) = ((1 : ℤ) : ZMod mm.natAbs) *
      (x : ZMod mm.natAbs) ^ y := BinaryPow.loop_spec hf 1 x y
  rw [h, Int.cast_one, one_mul, Int.cast_pow]

/-- For `mm ≥ 2`, a product that lands in `[0, mm)` makes the loops return `x ^ y % mm`: the
accumulator is a product, or the initial 1, which is in `[0, mm)` too. -/
theorem powLoops_eq_emod {mul : ℤ → ℤ → ℤ} {mm : ℤ}
    (hf : BinaryPow.IsMulHom (fun a : ℤ => (a : ZMod mm.natAbs)) mul)
    (hmul : ∀ a b, 0 ≤ a → 0 ≤ b → 0 ≤ mul a b ∧ mul a b < mm) (hmm : 2 ≤ mm) {x : ℤ}
    (hx : 0 ≤ x) (y : ℕ) : (powLoops mul 1 x y).1 = x ^ y % mm := by
  have hr : (0 ≤ (powLoops mul 1 x y).1 ∧ (powLoops mul 1 x y).1 < mm) ∨
      (powLoops mul 1 x y).1 = 1 := by
    rw [powLoops_eq_loop]
    exact BinaryPow.loop_mem (P := fun r => 0 ≤ r ∧ r < mm) (Q := (0 ≤ ·)) (fun _ h => h.1)
      hmul zero_le_one hx y
  have hr' : 0 ≤ (powLoops mul 1 x y).1 ∧ (powLoops mul 1 x y).1 < mm := by
    rcases hr with hr | hr
    · exact hr
    · rw [hr]
      omega
  exact eq_emod_of_cast_eq (by omega) hr'.1 hr'.2 (cast_powLoops hf x y)

theorem tmod_mem {mm : ℤ} (hmm : 0 < mm) (a b : ℤ) (ha : 0 ≤ a) (hb : 0 ≤ b) :
    0 ≤ (a * b).tmod mm ∧ (a * b).tmod mm < mm := by
  rw [Int.tmod_eq_emod_of_nonneg (mul_nonneg ha hb)]
  exact ⟨Int.emod_nonneg _ hmm.ne', Int.emod_lt_of_pos _ hmm⟩

theorem rbIntModulo_mem {mm : ℤ} (hmm : 0 < mm) (t : ℤ) :
    0 ≤ rbIntModulo t mm ∧ rbIntModulo t mm < mm := by
  rw [rbIntModulo, Int.fmod_eq_emod_of_nonneg _ hmm.le]
  exact ⟨Int.emod_nonneg _ hmm.ne', Int.emod_lt_of_pos _ hmm⟩

/-! ## `rb_int_powm` -/

/-- Reducing the base first does not change a power's remainder. -/
theorem pow_emod_emod (a mm : ℤ) (y : ℕ) : (a % mm) ^ y % mm = a ^ y % mm :=
  (Int.mod_modEq a mm).pow y

/-- `rb_int_powm` on valid arguments: the helper `|m|` selects, on `a` reduced modulo `|m|`. -/
theorem rbIntPowm_of_valid (bld : PowBuild) (a : ℤ) {b m : ℤ} (hb : 0 ≤ b) (hm : m ≠ 0) :
    rbIntPowm bld a b m = .ok
      (if fixableP |m| then
        if |m| ≤ halfLongMsb then intPowTmp1 (a % |m|) b.toNat |m| (decide (m < 0))
        else intPowTmp2 bld.dlong (a % |m|) b.toNat |m| (decide (m < 0))
      else intPowTmp3 bld.useGmp (a % |m|) b.toNat |m| (decide (m < 0))) := by
  have habs : (if m < 0 then -m else m) = |m| := by
    split_ifs with h
    · exact (abs_of_neg h).symm
    · exact (abs_of_nonneg (not_lt.mp h)).symm
  have hpos : 0 < |m| := abs_pos.mpr hm
  have hmod : rbIntModulo a |m| = a % |m| := Int.fmod_eq_emod_of_nonneg a hpos.le
  simp only [rbIntPowm, not_lt.mpr hb, if_false, habs, hpos, not_true_eq_false, hmod]
  split_ifs <;> rfl

/-- The result a helper gives for `mm` and the sign of `m` is Ruby's `a ** b % m` when the
accumulator is `a ^ b % |m|`. -/
theorem negaAdjust_eq_fmod {m mm : ℤ} (hm : mm = |m|) (hpos : 0 < mm) (t : ℤ) :
    (if decide (m < 0) = true ∧ t % mm ≠ 0 then t % mm - mm else t % mm) = t.fmod m := by
  rcases lt_or_ge m 0 with hneg | hnn
  · have hmm : m = -mm := by rw [hm, abs_of_neg hneg, neg_neg]
    rw [hmm, fmod_neg_eq t hpos]
    simp only [show decide (-mm < 0) = true by simpa using hpos, true_and]
  · have hmm : m = mm := by rw [hm, abs_of_nonneg hnn]
    rw [hmm, Int.fmod_eq_emod_of_nonneg t hpos.le]
    simp only [show decide (mm < 0) = false by simpa using hpos.le, Bool.false_eq_true,
      false_and, if_false]

/-- **`int_pow_tmp1` is right** for `2 ≤ |m| ≤ HALF_LONG_MSB`. -/
theorem rbIntPowm_of_le_halfLongMsb (bld : PowBuild) (a : ℤ) {b m : ℤ} (hb : 0 ≤ b)
    (hm2 : 2 ≤ |m|) (hm : |m| ≤ halfLongMsb) :
    rbIntPowm bld a b m = .ok ((a ^ b.toNat).fmod m) := by
  have hpos : 0 < |m| := by omega
  have hfix : fixableP |m| = true := by
    rw [fixableP_iff]
    rw [halfLongMsb] at hm
    omega
  rw [rbIntPowm_of_valid bld a hb (abs_pos.mp hpos), if_pos hfix, if_pos hm]
  congr 1
  -- the accumulator is `(a % |m|) ^ b % |m|`, which is `a ^ b % |m|`
  have hacc := powLoops_eq_emod (isMulHom_tmod |m|) (tmod_mem hpos) hm2
    (Int.emod_nonneg a hpos.ne') b.toNat
  rw [pow_emod_emod] at hacc
  rw [intPowTmp1, hacc]
  exact negaAdjust_eq_fmod rfl hpos _

/-- **`int_pow_tmp2` is right without `DLONG`**, for a Fixnum `|m|` above `HALF_LONG_MSB`. -/
theorem rbIntPowm_of_not_dlong (bld : PowBuild) (hd : bld.dlong = false) (a : ℤ) {b m : ℤ}
    (hb : 0 ≤ b) (hfix : fixableP |m| = true) (hm : halfLongMsb < |m|) :
    rbIntPowm bld a b m = .ok ((a ^ b.toNat).fmod m) := by
  have hm2 : 2 ≤ |m| := by
    rw [halfLongMsb] at hm
    omega
  have hpos : 0 < |m| := by omega
  rw [rbIntPowm_of_valid bld a hb (abs_pos.mp hpos), if_pos hfix, if_neg (not_le.mpr hm)]
  congr 1
  have hacc := powLoops_eq_emod (isMulHom_fmod |m|) (fun a b _ _ => rbIntModulo_mem hpos _)
    hm2 (Int.emod_nonneg a hpos.ne') b.toNat
  rw [pow_emod_emod] at hacc
  simp only [intPowTmp2, hd, Bool.false_eq_true, if_false, hacc]
  exact negaAdjust_eq_fmod rfl hpos _

/-- **With `DLONG`, `int_pow_tmp2` returns 1**, or `1 - |m|` for a negative `m`, whatever `a`
and `b` are. -/
theorem rbIntPowm_of_dlong (bld : PowBuild) (hd : bld.dlong = true) (a : ℤ) {b m : ℤ}
    (hb : 0 ≤ b) (hfix : fixableP |m| = true) (hm : halfLongMsb < |m|) :
    rbIntPowm bld a b m = .ok (if m < 0 then 1 - |m| else 1) := by
  have hpos : 0 < |m| := by
    rw [halfLongMsb] at hm
    omega
  rw [rbIntPowm_of_valid bld a hb (abs_pos.mp hpos), if_pos hfix, if_neg (not_le.mpr hm)]
  simp only [intPowTmp2, hd, if_true, ne_eq, one_ne_zero, not_false_eq_true, and_true,
    decide_eq_true_eq]

/-- **`int_pow_tmp3` is right without GMP.** -/
theorem rbIntPowm_of_not_useGmp (bld : PowBuild) (hg : bld.useGmp = false) (a : ℤ) {b m : ℤ}
    (hb : 0 ≤ b) (hfix : fixableP |m| = false) :
    rbIntPowm bld a b m = .ok ((a ^ b.toNat).fmod m) := by
  -- a Bignum `|m|` is at least `2 ^ 62`
  have hm2 : 2 ≤ |m| := by
    have : ¬(-2 ^ 62 ≤ |m| ∧ |m| < 2 ^ 62) := by
      rw [← fixableP_iff, hfix]
      exact Bool.false_ne_true
    have := abs_nonneg m
    omega
  have hpos : 0 < |m| := by omega
  rw [rbIntPowm_of_valid bld a hb (abs_pos.mp hpos), if_neg (by rw [hfix]; exact Bool.false_ne_true)]
  congr 1
  have hacc := powLoops_eq_emod (isMulHom_fmod |m|) (fun a b _ _ => rbIntModulo_mem hpos _)
    hm2 (Int.emod_nonneg a hpos.ne') b.toNat
  rw [pow_emod_emod] at hacc
  have hsign : (0 < a ^ b.toNat % |m|) ↔ a ^ b.toNat % |m| ≠ 0 :=
    ⟨ne_of_gt, fun h => lt_of_le_of_ne (Int.emod_nonneg _ hpos.ne') (Ne.symm h)⟩
  simp only [intPowTmp3, hg, Bool.false_eq_true, if_false, hacc, hsign]
  exact negaAdjust_eq_fmod rfl hpos _

/-- With GMP, `int_pow_tmp3` subtracts `|m|` from the remainder for every negative `m`, a
remainder 0 included. -/
theorem rbIntPowm_useGmp (bld : PowBuild) (hg : bld.useGmp = true) (a : ℤ) {b m : ℤ}
    (hb : 0 ≤ b) (hfix : fixableP |m| = false) :
    rbIntPowm bld a b m =
      .ok (if m < 0 then a ^ b.toNat % |m| - |m| else a ^ b.toNat % |m|) := by
  have hm2 : 2 ≤ |m| := by
    have : ¬(-2 ^ 62 ≤ |m| ∧ |m| < 2 ^ 62) := by
      rw [← fixableP_iff, hfix]
      exact Bool.false_ne_true
    have := abs_nonneg m
    omega
  have hpos : 0 < |m| := by omega
  rw [rbIntPowm_of_valid bld a hb (abs_pos.mp hpos), if_neg (by rw [hfix]; exact Bool.false_ne_true)]
  simp only [intPowTmp3, hg, if_true, pow_emod_emod, decide_eq_true_eq]

/-- **With GMP, a result 0 for a negative Bignum `m` comes back as `m`.** -/
theorem rbIntPowm_useGmp_of_dvd (bld : PowBuild) (hg : bld.useGmp = true) (a : ℤ) {b m : ℤ}
    (hb : 0 ≤ b) (hfix : fixableP |m| = false) (hneg : m < 0) (hdvd : m ∣ a ^ b.toNat) :
    rbIntPowm bld a b m = .ok m ∧ (a ^ b.toNat).fmod m = 0 := by
  have hz : a ^ b.toNat % |m| = 0 := Int.emod_eq_zero_of_dvd ((abs_dvd m _).mpr hdvd)
  refine ⟨?_, Int.fmod_eq_zero_of_dvd hdvd⟩
  rw [rbIntPowm_useGmp bld hg a hb hfix, if_pos hneg, hz, abs_of_neg hneg]
  simp

/-- `int_pow_tmp1` returns its initial `tmp = 1` for `b = 0`, also for `m = 1`. -/
theorem rbIntPowm_zero_one (bld : PowBuild) (a : ℤ) : rbIntPowm bld a 0 1 = .ok 1 := by
  rw [rbIntPowm_of_valid bld a le_rfl one_ne_zero]
  simp only [abs_one, show fixableP 1 = true by decide, if_true,
    show (1 : ℤ) ≤ halfLongMsb by decide, intPowTmp1, Int.toNat_zero, powLoops_eq_loop,
    BinaryPow.loop_zero]
  decide

/-- A negative exponent is refused, before the modulus is looked at. -/
theorem rbIntPowm_of_neg (bld : PowBuild) (a : ℤ) {b : ℤ} (hb : b < 0) (m : ℤ) :
    rbIntPowm bld a b m = .error (.rangeError
      "Integer#pow() 1st argument cannot be negative when 2nd argument specified") := by
  rw [rbIntPowm, if_pos hb]

theorem rbIntPowm_zero_modulus (bld : PowBuild) (a : ℤ) {b : ℤ} (hb : 0 ≤ b) :
    rbIntPowm bld a b 0 = .error .zeroDivError := by
  simp [rbIntPowm, not_lt.mpr hb]

/-- `a.pow(0, 1)` is 1 on every build, where `a ** 0 % 1` is 0; and on a build with `DLONG`,
`2.pow(3, 2 ** 31 + 1)` is 1, where `2 ** 3 % (2 ** 31 + 1)` is 8. -/
theorem int_pow_misses_modulo (bld : PowBuild) (a : ℤ) :
    (rbIntPowm bld a 0 1 = .ok 1 ∧ (a ^ (0 : ℤ).toNat).fmod 1 = 0) ∧
      (rbIntPowm { bld with dlong := true } 2 3 (2 ^ 31 + 1) = .ok 1 ∧
        ((2 : ℤ) ^ (3 : ℤ).toNat).fmod (2 ^ 31 + 1) = 8) := by
  refine ⟨⟨rbIntPowm_zero_one bld a, by simp⟩, ?_, by decide⟩
  rw [rbIntPowm_of_dlong _ rfl 2 (by decide) (by decide) (by decide)]
  simp

end CRuby.Num
