import CRuby.Num.IntRound

/-!
# Rounding a Float to a power of ten (numeric.c)

`Float#round`, `#floor` and `#ceil` with `ndigits ≤ 0` answer an Integer. With `ndigits < 0`
they hand an Integer to `rb_int_round`, `rb_int_floor` or `rb_int_ceil`: `flo_floor` and
`flo_ceil` first take `floor(x)` and `ceil(x)`, which changes nothing of the multiple of `10^k`
below or above `x`, but `flo_round` takes `flo_to_i(x)`, the integer towards zero. A tie of the
integer is then not a tie of `x`: `15.5.round(-1, half: :down)` rounds `15` and answers `10`,
where `15.5` is nearer `20`. Only `half: :up` is unharmed (`floRound_halfUp_spec`). With
`ndigits = 0` the three `round_half_*` functions run with `s = 1.0` in double arithmetic, and
`round_half_down` compares `x` with `f - 0.5` after that difference is rounded: for an even
integer from `2^52` on it rounds up to `f` and `f` is lowered.

`flo_floor` and `flo_ceil` return the multiple below or above `x` wherever `rb_int_floor` and
`rb_int_ceil` return it for `floor(x)` and `ceil(x)` (`floFloor_spec`, `floCeil_spec`), and so
inherit their wrong answers.

A double is its value, a rational (`Binary64`), and each double operation rounds its exact
result with `Binary64.round`. `ndigits = -k` with `k : ℕ`; the paths for `ndigits > 0`, which
answer a Float, are not modelled.
-/

namespace CRuby.Num

/-- C's `round(x)`: the integer nearest `x`, a half away from zero. It is exact on a double. -/
def cRound (x : ℚ) : ℚ := if 0 ≤ x then ⌊x + 1 / 2⌋ else -⌊-x + 1 / 2⌋

/-- C's `fmod(a, b)`: `a - n * b` with `n = a / b` towards zero, exact. -/
def fmod (a b : ℚ) : ℚ := a - b * Binary64.truncate (a / b)

/-- `round_half_up(x, s)`. -/
def roundHalfUp (x s : ℚ) : ℚ :=
  let f := cRound (Binary64.round (x * s))
  if s = 1 then f
  else if 0 < x then
    if Binary64.round (Binary64.round (f + 1 / 2) / s) ≤ x then Binary64.round (f + 1) else f
  else if x ≤ Binary64.round (Binary64.round (f - 1 / 2) / s) then Binary64.round (f - 1) else f

/-- `round_half_down(x, s)`. -/
def roundHalfDown (x s : ℚ) : ℚ :=
  let f := cRound (Binary64.round (x * s))
  if 0 < x then
    if x ≤ Binary64.round (Binary64.round (f - 1 / 2) / s) then Binary64.round (f - 1) else f
  else if Binary64.round (Binary64.round (f + 1 / 2) / s) ≤ x then Binary64.round (f + 1) else f

/-- `round_half_even(x, s)`. -/
def roundHalfEven (x s : ℚ) : ℚ :=
  let xs := Binary64.round (x * s)
  if 0 < x then
    let f : ℚ := ⌊xs⌋
    let d := Binary64.round (xs - f)
    let d :=
      if 1 / 2 < d then 1
      else if d = 1 / 2 ∨ Binary64.round (Binary64.round (f + 1 / 2) / s) ≤ x then fmod f 2
      else 0
    Binary64.round (f + d)
  else if x < 0 then
    let f : ℚ := ⌈xs⌉
    let d := Binary64.round (f - xs)
    let d :=
      if 1 / 2 < d then 1
      else if d = 1 / 2 ∨ x ≤ Binary64.round (Binary64.round (f - 1 / 2) / s) then fmod (-f) 2
      else 0
    Binary64.round (f - d)
  else x

/-- `ROUND_CALL(mode, round, (x, s))`. -/
def roundCall : RoundingMode → ℚ → ℚ → ℚ
  | .halfEven => roundHalfEven
  | .halfUp => roundHalfUp
  | .halfDown => roundHalfDown

/-- `dbl2ival(d)` of an integral double: `LONG2FIX((long)d)` or `rb_dbl2big(d)`, both its
value. -/
def dbl2ival (d : ℚ) : ℤ := Binary64.truncate d

/-- `flo_to_i(num)`: `floor` above 0, `ceil` below. -/
def floToI (x : ℚ) : ℤ :=
  let f : ℚ := if 0 < x then ⌊x⌋ else x
  let f : ℚ := if f < 0 then ⌈f⌉ else f
  dbl2ival f

/-- **`flo_round(x, ndigits)`** for `ndigits = -k ≤ 0`. -/
def floRound (bld : Build) (fuel : ℕ) (x : ℚ) (k : ℕ) (mode : RoundingMode) : Option ℤ :=
  if x = 0 then some 0
  else if 0 < k then rbIntRound bld fuel (floToI x) (-k) mode
  else some (dbl2ival (roundCall mode x 1))

/-- **`flo_floor(x, ndigits)`** for `ndigits = -k ≤ 0`. -/
def floFloor (bld : Build) (fuel : ℕ) (x : ℚ) (k : ℕ) : Option ℤ :=
  if x = 0 then some 0
  else
    let num := dbl2ival ⌊x⌋
    if 0 < k then rbIntFloor bld fuel num (-k) else some num

/-- **`flo_ceil(x, ndigits)`** for `ndigits = -k ≤ 0`. -/
def floCeil (bld : Build) (fuel : ℕ) (x : ℚ) (k : ℕ) : Option ℤ :=
  if x = 0 then some 0
  else
    let num := dbl2ival ⌈x⌉
    if 0 < k then rbIntCeil bld fuel num (-k) else some num

/-! ## What the three functions are for -/

/-- `m` is the multiple of `f` nearest the rational `x`, a tie broken by `mode`. -/
def IsNearestMultipleOf (mode : RoundingMode) (f : ℤ) (x : ℚ) (m : ℤ) : Prop :=
  f ∣ m ∧ 2 * |x - m| ≤ f ∧
    (2 * |x - m| = f →
      match mode with
      | .halfUp => |x| < |(m : ℚ)|
      | .halfDown => |(m : ℚ)| < |x|
      | .halfEven => Even (m / f))

/-- `m` is the greatest multiple of `f` at or below `x`. -/
def IsFloorMultipleOf (f : ℤ) (x : ℚ) (m : ℤ) : Prop := f ∣ m ∧ (m : ℚ) ≤ x ∧ x < m + f

/-- `m` is the least multiple of `f` at or above `x`. -/
def IsCeilMultipleOf (f : ℤ) (x : ℚ) (m : ℤ) : Prop := f ∣ m ∧ x ≤ m ∧ (m : ℚ) < x + f

/-! ## Floor and ceiling -/

/-- The multiple of `f` below `⌊x⌋` is the one below `x`. -/
theorem IsFloorMultiple.of_floor {f m : ℤ} {x : ℚ} (h : IsFloorMultiple f ⌊x⌋ m) :
    IsFloorMultipleOf f x m := by
  obtain ⟨hd, hle, hlt⟩ := h
  have h1 : (⌊x⌋ : ℚ) ≤ x := Int.floor_le x
  have h2 : x < ⌊x⌋ + 1 := Int.lt_floor_add_one x
  have h3 : ((⌊x⌋ + 1 : ℤ) : ℚ) ≤ m + f := by exact_mod_cast (show ⌊x⌋ + 1 ≤ m + f by omega)
  have h4 : (m : ℚ) ≤ ⌊x⌋ := by exact_mod_cast hle
  push_cast at h3
  exact ⟨hd, by linarith, by linarith⟩

/-- The multiple of `f` above `⌈x⌉` is the one above `x`. -/
theorem IsCeilMultiple.of_ceil {f m : ℤ} {x : ℚ} (h : IsCeilMultiple f ⌈x⌉ m) :
    IsCeilMultipleOf f x m := by
  obtain ⟨hd, hle, hlt⟩ := h
  have h1 : x ≤ ⌈x⌉ := Int.le_ceil x
  have h2 : (⌈x⌉ : ℚ) < x + 1 := Int.ceil_lt_add_one x
  have h3 : (m : ℚ) ≤ ((⌈x⌉ + f - 1 : ℤ) : ℚ) := by exact_mod_cast (show m ≤ ⌈x⌉ + f - 1 by omega)
  have h4 : (⌈x⌉ : ℚ) ≤ m := by exact_mod_cast hle
  push_cast at h3
  exact ⟨hd, by linarith, by linarith⟩

theorem dbl2ival_intCast (n : ℤ) : dbl2ival n = n := Binary64.truncate_intCast n

/-- **What `flo_floor` returns**: the greatest multiple of `10 ^ k` at or below `x`, but 0 where
the estimate of `rb_int_floor` holds for a negative `floor(x)`. -/
theorem floFloor_spec (bld : Build) (x : ℚ) {k : ℕ} (hk : k ≤ 2 ^ 22) :
    ∃ m, (∀ fuel, k + 6 ≤ fuel → floFloor bld fuel x k = some m) ∧
      if 0 < k ∧ intRoundZeroP ⌊x⌋ (-k) = true ∧ ⌊x⌋ < 0 then m = 0
      else IsFloorMultipleOf (10 ^ k) x m := by
  by_cases hx : x = 0
  · -- `number == 0.0`
    refine ⟨0, fun fuel _ => by rw [floFloor, if_pos hx], ?_⟩
    rw [if_neg (by rw [hx, Int.floor_zero]; omega)]
    subst hx
    exact ⟨dvd_zero _, by norm_num, by push_cast; positivity⟩
  rcases Nat.eq_zero_or_pos k with rfl | hk0
  · refine ⟨⌊x⌋, fun fuel _ => by rw [floFloor, if_neg hx, dbl2ival_intCast, if_neg (lt_irrefl 0)],
      ?_⟩
    rw [if_neg (fun h => lt_irrefl 0 h.1)]
    exact IsFloorMultiple.of_floor ⟨one_dvd _, le_rfl, by simp⟩
  obtain ⟨m, hm, hspec⟩ := rbIntFloor_spec bld ⌊x⌋ (show -(-(k : ℤ)) ≤ 2 ^ 22 by omega)
  have hnd : (-(-(k : ℤ))).toNat = k := by omega
  rw [hnd] at hm hspec
  refine ⟨m, fun fuel hf => ?_, ?_⟩
  · rw [floFloor, if_neg hx, dbl2ival_intCast, if_pos hk0]
    exact hm fuel hf
  · by_cases hz : intRoundZeroP ⌊x⌋ (-k) = true ∧ ⌊x⌋ < 0
    · rw [if_pos hz] at hspec
      rw [if_pos ⟨hk0, hz⟩]
      exact hspec
    · rw [if_neg hz] at hspec
      rw [if_neg (fun h => hz h.2)]
      exact hspec.of_floor

/-- **What `flo_ceil` returns**: the least multiple of `10 ^ k` at or above `x`, but 0 where the
estimate of `rb_int_ceil` holds for a positive `ceil(x)`, and `ceil(x) + 10 ^ k` where its
Integer path meets a multiple. -/
theorem floCeil_spec (bld : Build) (x : ℚ) {k : ℕ} (hk : k ≤ 2 ^ 22) :
    ∃ m, (∀ fuel, k + 6 ≤ fuel → floCeil bld fuel x k = some m) ∧
      if x ≠ 0 ∧ 0 < k ∧ intRoundZeroP ⌈x⌉ (-k) = true ∧ 0 < ⌈x⌉ then m = 0
      else if x ≠ 0 ∧ 0 < k ∧ intRoundZeroP ⌈x⌉ (-k) = false ∧
          (fixableP ⌈x⌉ && fixableP (10 ^ k)) = false ∧ 10 ^ k ∣ ⌈x⌉ then m = ⌈x⌉ + 10 ^ k
      else IsCeilMultipleOf (10 ^ k) x m := by
  by_cases hx : x = 0
  · refine ⟨0, fun fuel _ => by rw [floCeil, if_pos hx], ?_⟩
    rw [if_neg (fun h => h.1 hx), if_neg (fun h => h.1 hx)]
    subst hx
    exact ⟨dvd_zero _, by norm_num, by push_cast; positivity⟩
  rcases Nat.eq_zero_or_pos k with rfl | hk0
  · refine ⟨⌈x⌉, fun fuel _ => by rw [floCeil, if_neg hx, dbl2ival_intCast, if_neg (lt_irrefl 0)],
      ?_⟩
    rw [if_neg (fun h => lt_irrefl 0 h.2.1), if_neg (fun h => lt_irrefl 0 h.2.1)]
    exact IsCeilMultiple.of_ceil ⟨one_dvd _, le_rfl, by simp⟩
  obtain ⟨m, hm, hspec⟩ := rbIntCeil_spec bld ⌈x⌉ (show -(-(k : ℤ)) ≤ 2 ^ 22 by omega)
  have hnd : (-(-(k : ℤ))).toNat = k := by omega
  rw [hnd] at hm hspec
  refine ⟨m, fun fuel hf => ?_, ?_⟩
  · rw [floCeil, if_neg hx, dbl2ival_intCast, if_pos hk0]
    exact hm fuel hf
  · -- with `x ≠ 0` and `0 < k` the cases are those of `rb_int_ceil`
    simp only [ne_eq, hx, not_false_eq_true, hk0, true_and]
    split_ifs at hspec ⊢ with hz hint
    · exact hspec
    · exact hspec
    · exact hspec.of_ceil

/-! ## `half: :up` -/

/-- With `f` even, a multiple of `f` nearest `⌊x⌋`, a tie up, is nearest `x ≥ 0`: the midpoints
between multiples are integers, so `x` and `⌊x⌋` lie on the same side of each. -/
theorem IsNearestMultiple.halfUp_of_floor {f m : ℤ} {x : ℚ} (he : Even f) (hx : 0 ≤ x)
    (h : IsNearestMultiple .halfUp f ⌊x⌋ m) : IsNearestMultipleOf .halfUp f x m := by
  obtain ⟨hd, hle, htie⟩ := h
  have h1 : (⌊x⌋ : ℚ) ≤ x := Int.floor_le x
  have h2 : x < ⌊x⌋ + 1 := Int.lt_floor_add_one x
  have hn0 : 0 ≤ ⌊x⌋ := Int.floor_nonneg.mpr hx
  obtain ⟨j, hj⟩ := he
  rcases le_or_gt m ⌊x⌋ with hmn | hmn
  · -- `m` at or below `⌊x⌋`: no tie there, and the gap is at most `f / 2 - 1`
    rw [abs_of_nonneg (by omega)] at hle htie
    have hgap : 2 * (⌊x⌋ - m) + 2 ≤ f := by
      by_contra hcon
      have ht := htie (by omega)
      simp only [TieRule, abs_of_nonneg hn0] at ht
      -- `|m| > ⌊x⌋ ≥ m` makes `m` negative, so `m ≤ -f`, too far below
      have hneg : m < 0 := by
        by_contra h0
        rw [abs_of_nonneg (by omega)] at ht
        omega
      have hf : f ≤ -m := Int.le_of_dvd (by omega) ((Int.dvd_neg).mpr hd)
      omega
    have hg : ((2 * (⌊x⌋ - m) + 2 : ℤ) : ℚ) ≤ f := by exact_mod_cast hgap
    have hmx : (m : ℚ) ≤ ⌊x⌋ := by exact_mod_cast hmn
    push_cast at hg
    unfold IsNearestMultipleOf
    rw [abs_of_nonneg (by linarith)]
    exact ⟨hd, by linarith, fun htx => by linarith⟩
  · -- `m` above: `x` is nearer it than `⌊x⌋`, and a tie of `x` is a tie of `⌊x⌋ = x`
    rw [abs_of_nonpos (by omega)] at hle
    have hle' : ((2 * (m - ⌊x⌋) : ℤ) : ℚ) ≤ f := by
      exact_mod_cast (show 2 * (m - ⌊x⌋) ≤ f by omega)
    have hlt : (⌊x⌋ : ℚ) + 1 ≤ m := by exact_mod_cast (show ⌊x⌋ + 1 ≤ m by omega)
    push_cast at hle'
    unfold IsNearestMultipleOf
    rw [abs_of_nonpos (by linarith)]
    refine ⟨hd, by linarith, fun htx => ?_⟩
    show |x| < |(m : ℚ)|
    rw [abs_of_nonneg hx, abs_of_nonneg (by linarith)]
    linarith

theorem IsNearestMultipleOf.of_neg_halfUp {f m : ℤ} {x : ℚ}
    (h : IsNearestMultipleOf .halfUp f (-x) (-m)) : IsNearestMultipleOf .halfUp f x m := by
  obtain ⟨hd, hle, htie⟩ := h
  have habs : |-x - ((-m : ℤ) : ℚ)| = |x - m| := by
    rw [← abs_neg]
    push_cast
    ring_nf
  rw [habs] at hle htie
  refine ⟨Int.dvd_neg.mp hd, hle, fun h2 => ?_⟩
  have ht : |-x| < |((-m : ℤ) : ℚ)| := htie h2
  push_cast at ht
  rwa [abs_neg, abs_neg] at ht

theorem floToI_of_nonneg {x : ℚ} (hx : 0 ≤ x) : floToI x = ⌊x⌋ := by
  rcases hx.lt_or_eq with hx | rfl
  · have hf : (0 : ℚ) ≤ ⌊x⌋ := by exact_mod_cast Int.floor_nonneg.mpr hx.le
    rw [floToI, if_pos hx, if_neg (not_lt.mpr hf), dbl2ival_intCast]
  · rw [floToI, if_neg (lt_irrefl 0), if_neg (lt_irrefl 0), Int.floor_zero]
    rfl

theorem floToI_of_neg {x : ℚ} (hx : x < 0) : floToI x = -⌊-x⌋ := by
  rw [floToI, if_neg (not_lt.mpr hx.le), if_pos hx, dbl2ival_intCast, ← Int.ceil_neg, neg_neg]

/-- **`half: :up` rounds a Float to the nearest multiple of `10 ^ k`**, a tie away from zero, for
`ndigits = -k < 0` up to `2 ^ 22` digits: truncating first does not move `x` across a midpoint. -/
theorem floRound_halfUp_spec (bld : Build) (x : ℚ) {k : ℕ} (hk0 : 0 < k) (hk : k ≤ 2 ^ 22) :
    ∃ m, (∀ fuel, k + 6 ≤ fuel → floRound bld fuel x k .halfUp = some m) ∧
      IsNearestMultipleOf .halfUp (10 ^ k) x m := by
  by_cases hx : x = 0
  · refine ⟨0, fun fuel _ => by rw [floRound, if_pos hx], ?_⟩
    subst hx
    have hf : (0 : ℚ) < ((10 ^ k : ℤ) : ℚ) := by positivity
    refine ⟨dvd_zero _, by simp [hf.le], fun h => ?_⟩
    simp only [Int.cast_zero, sub_zero, abs_zero, mul_zero] at h
    exact absurd h hf.ne
  obtain ⟨m, hm, hspec⟩ := rbIntRound_spec bld (floToI x) (show -(k : ℤ) < 0 by omega)
    (show -(-(k : ℤ)) ≤ 2 ^ 22 by omega) .halfUp
  have hnd : (-(-(k : ℤ))).toNat = k := by omega
  rw [hnd] at hm hspec
  refine ⟨m, fun fuel hf => by rw [floRound, if_neg hx, if_pos hk0]; exact hm fuel hf, ?_⟩
  have he : Even ((10 : ℤ) ^ k) := (Int.even_pow' hk0.ne').mpr ⟨5, by norm_num⟩
  rcases le_or_gt 0 x with hx0 | hx0
  · rw [floToI_of_nonneg hx0] at hspec
    exact hspec.halfUp_of_floor he hx0
  · -- below zero, by symmetry
    rw [floToI_of_neg hx0] at hspec
    have hneg := hspec.neg
    rw [neg_neg] at hneg
    exact (hneg.halfUp_of_floor he (by linarith)).of_neg_halfUp

/-! ## Where the results are wrong -/

/-- `2 ^ 52 + 1.5` lies halfway between two doubles and rounds to the even one, `2 ^ 52 + 2`. -/
theorem round_tie_above_two_pow_52 :
    Binary64.round (9007199254740995 / 2) = 4503599627370498 := by
  have h1 : (2 : ℚ) ^ (52 : ℤ) ≤ 9007199254740995 / 2 := by norm_num
  have h2 : (9007199254740995 / 2 : ℚ) < 2 ^ ((52 : ℤ) + 1) := by norm_num
  have hu : Binary64.ulp 52 = 1 := by norm_num [Binary64.ulp]
  have hq : ⌊(9007199254740995 / 2 : ℚ) / 1⌋ = 4503599627370497 := by
    rw [div_one, Int.floor_eq_iff]
    norm_num
  rw [Binary64.round, if_pos (by norm_num), Binary64.roundPos_of_bounds h1 h2, hu, hq]
  norm_num [Binary64.roundHalfEven]

/-- `round_half_down(2 ^ 52 + 2, 1.0)`: `f - 0.5` rounds back to `f`, so `f` is lowered. -/
theorem roundHalfDown_two_pow_52_add_two :
    roundHalfDown 4503599627370498 1 = 4503599627370497 := by
  have hx : Binary64.round (4503599627370498 * 1) = 4503599627370498 := by
    have := Binary64.round_intCast (n := 4503599627370498) (by norm_num)
    push_cast at this
    rwa [mul_one]
  have hf : cRound 4503599627370498 = 4503599627370498 := by
    have hfl : ⌊(4503599627370498 : ℚ) + 1 / 2⌋ = 4503599627370498 := by
      rw [Int.floor_eq_iff]
      norm_num
    rw [cRound, if_pos (by norm_num), hfl]
    rfl
  have hm : (4503599627370498 : ℚ) - 1 / 2 = 9007199254740995 / 2 := by norm_num
  have hd : Binary64.round (4503599627370498 / 1) = 4503599627370498 := by
    rw [div_one]
    rwa [mul_one] at hx
  have hs : Binary64.round (4503599627370498 - 1) = 4503599627370497 := by
    have := Binary64.round_intCast (n := 4503599627370497) (by norm_num)
    push_cast at this
    rw [show (4503599627370498 - 1 : ℚ) = 4503599627370497 by norm_num, this]
  simp only [roundHalfDown, hx, hf, hm, round_tie_above_two_pow_52, hd, le_refl, if_true,
    if_pos (show (0 : ℚ) < 4503599627370498 by norm_num), hs]

/-- **Where `flo_round` and `flo_floor` go wrong.** `15.5.round(-1, half: :down)` and
`25.5.round(-1, half: :even)` round the truncated `15` and `25` and answer `10` and `20`, where
`15.5` and `25.5` are nearer `20` and `30`; `4503599627370498.0.round(half: :down)` answers
`4503599627370497`; and `(-1.5).floor(-20)` answers `0` through the estimate of `rb_int_floor`. -/
theorem flo_rounding_wrong_results (bld : Build) (fuel : ℕ) :
    floRound bld (fuel + 7) (31 / 2) 1 .halfDown = some 10 ∧
      ¬IsNearestMultipleOf .halfDown 10 (31 / 2) 10 ∧
    floRound bld (fuel + 7) (51 / 2) 1 .halfEven = some 20 ∧
      ¬IsNearestMultipleOf .halfEven 10 (51 / 2) 20 ∧
    floRound bld fuel 4503599627370498 0 .halfDown = some 4503599627370497 ∧
      ¬IsNearestMultipleOf .halfDown 1 4503599627370498 4503599627370497 ∧
    floFloor bld fuel (-3 / 2) 20 = some 0 ∧ ¬IsFloorMultipleOf (10 ^ 20) (-3 / 2) 0 := by
  have hz15 : intRoundZeroP 15 (-1) = false :=
    intRoundZeroP_eq_false (by rw [intRoundBytes, if_pos (by decide)]; norm_num)
  have hz25 : intRoundZeroP 25 (-1) = false :=
    intRoundZeroP_eq_false (by rw [intRoundBytes, if_pos (by decide)]; norm_num)
  have hi15 : floToI (31 / 2) = 15 := by
    rw [floToI_of_nonneg (by norm_num), Int.floor_eq_iff]
    norm_num
  have hi25 : floToI (51 / 2) = 25 := by
    rw [floToI_of_nonneg (by norm_num), Int.floor_eq_iff]
    norm_num
  have hfl : ⌊(-3 / 2 : ℚ)⌋ = -2 := by
    rw [Int.floor_eq_iff]
    norm_num
  refine ⟨?_, ?_, ?_, ?_, ?_, ?_, ?_, ?_⟩
  · rw [floRound, if_neg (by norm_num), if_pos (by norm_num), hi15, rbIntRound,
      intRoundWith_eq bld 15 (by norm_num) _ _ _ (by omega), Nat.cast_one, hz15]
    decide
  · rintro ⟨-, h, -⟩
    norm_num at h
  · rw [floRound, if_neg (by norm_num), if_pos (by norm_num), hi25, rbIntRound,
      intRoundWith_eq bld 25 (by norm_num) _ _ _ (by omega), Nat.cast_one, hz25]
    decide
  · rintro ⟨-, h, -⟩
    norm_num at h
  · rw [floRound, if_neg (by norm_num), if_neg (by norm_num)]
    show some (dbl2ival (roundHalfDown 4503599627370498 1)) = _
    rw [roundHalfDown_two_pow_52_add_two]
    norm_num [dbl2ival, Binary64.truncate]
  · rintro ⟨-, h, -⟩
    norm_num at h
  · rw [floFloor, if_neg (by norm_num), hfl, dbl2ival_intCast]
    rw [if_pos (by norm_num), rbIntFloor, intRoundWith,
      if_pos (intRoundZeroP_of_fixnum (by decide) (by norm_num))]
  · rintro ⟨-, h, -⟩
    norm_num at h

end CRuby.Num
