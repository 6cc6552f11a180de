import Mathlib.Analysis.SpecialFunctions.Sqrt
import Mathlib.Data.Int.Log
import Mathlib.Data.Rat.Floor
import Mathlib.Algebra.Order.Floor.Semifield

/-!
# Binary64 values and correct rounding

IEEE 754 binary64 arithmetic returns, for each operation, the double nearest the exact result
(ties to an even significand). This file models the finite doubles by their values and the two
roundings the modelled code relies on; it names no program.

* `IsFinite x`: `x` is `m * 2 ^ e` with `|m| < 2 ^ 53` and `-1074 ≤ e ≤ 971`.
* A double of magnitude at least `2 ^ k` is a multiple of `ulp k = 2 ^ (k - 52)`
  (`IsFinite.exists_eq_mul_ulp`), so between two neighbours `q * ulp k` and `(q + 1) * ulp k` of
  that binade there is no other double, and the closer of them is a nearest double to every
  real in between (`le_abs_sub_of_bracket`).
* `round x` rounds a rational, `sqrt x` takes the square root of a double; both pick the
  neighbour by the midpoint (`roundHalfEven`), and both return a nearest double
  (`round_nearest`, `sqrt_nearest`) in the normal range, without overflow.
* Rounding a positive rational moves it by at most `2 ^ -52` of itself
  (`round_bounds_of_pos`), the bound a chain of operations is estimated with.
* `truncate` is C's conversion of a double to an integer type, for a result that type holds.
-/

namespace Binary64

/-- The spacing of the doubles in the binade `[2 ^ k, 2 ^ (k + 1))`. -/
def ulp (k : ℤ) : ℚ := 2 ^ (k - 52)

/-- `x` is a finite binary64 value. -/
def IsFinite (x : ℚ) : Prop :=
  ∃ m e : ℤ, |m| < 2 ^ 53 ∧ -1074 ≤ e ∧ e ≤ 971 ∧ x = m * 2 ^ e

/-- Between the neighbours `q` and `q + 1`: the lower one below the midpoint, the upper one above
it, the even one on it. -/
def roundHalfEven (q : ℤ) (below above : Bool) : ℤ :=
  if below then q else if above then q + 1 else if q % 2 = 0 then q else q + 1

/-- The double nearest a positive rational, ties to even. -/
def roundPos (x : ℚ) : ℚ :=
  let u := ulp (Int.log 2 x)
  let q := ⌊x / u⌋
  roundHalfEven q (decide (2 * x < (2 * q + 1) * u)) (decide ((2 * q + 1) * u < 2 * x)) * u

/-- The double nearest a rational, ties to even. -/
def round (x : ℚ) : ℚ :=
  if 0 < x then roundPos x else if x < 0 then -roundPos (-x) else 0

/-- `sqrt` of a non-negative double, correctly rounded: the neighbours of `√x` in its binade are
found with an integer square root, and `√x` is compared with their midpoint by squaring. -/
def sqrt (x : ℚ) : ℚ :=
  if x ≤ 0 then 0
  else
    let u := ulp (Int.log 2 x / 2)
    let q : ℤ := Nat.sqrt ⌊x / u ^ 2⌋₊
    roundHalfEven q (decide (4 * x < (2 * q + 1) ^ 2 * u ^ 2))
      (decide ((2 * q + 1) ^ 2 * u ^ 2 < 4 * x)) * u

/-- C's conversion of a double to an integer type, towards zero. -/
def truncate (d : ℚ) : ℤ := if 0 ≤ d then ⌊d⌋ else ⌈d⌉

/-! ## The grid -/

theorem ulp_pos (k : ℤ) : 0 < ulp k := zpow_pos two_pos _

theorem ulp_mul_two_pow (k : ℤ) : ulp k * 2 ^ 52 = 2 ^ k := by
  rw [ulp, ← zpow_natCast, ← zpow_add₀ two_ne_zero]
  norm_num

/-- **A double of magnitude at least `2 ^ k` is a multiple of `ulp k`.** -/
theorem IsFinite.exists_eq_mul_ulp {x : ℚ} (hx : IsFinite x) {k : ℤ} (hk : 2 ^ k ≤ |x|) :
    ∃ j : ℤ, x = j * ulp k := by
  obtain ⟨m, e, hm, -, -, rfl⟩ := hx
  -- the exponent is at least `k - 52`, since `|m| < 2 ^ 53`
  have hek : k - 52 ≤ e := by
    by_contra h
    have hlt : |(m : ℚ) * 2 ^ e| < 2 ^ k := by
      rw [abs_mul, abs_of_pos (zpow_pos (two_pos : (0 : ℚ) < 2) e)]
      calc |(m : ℚ)| * 2 ^ e < 2 ^ (53 : ℤ) * 2 ^ e := by
            gcongr
            exact_mod_cast hm
        _ = 2 ^ (e + 53) := by rw [← zpow_add₀ two_ne_zero, add_comm]
        _ ≤ 2 ^ k := zpow_le_zpow_right₀ one_le_two (by omega)
    exact absurd hk (not_le.mpr hlt)
  refine ⟨m * 2 ^ (e - (k - 52)).toNat, ?_⟩
  rw [ulp]
  push_cast
  rw [← zpow_natCast, Int.toNat_of_nonneg (by omega), mul_assoc, ← zpow_add₀ two_ne_zero,
    sub_add_cancel]

/-- A multiple of `ulp k` by at most `2 ^ 53` is a double, in the normal binades. -/
theorem isFinite_mul_ulp {q k : ℤ} (hq : |q| ≤ 2 ^ 53) (hk1 : -1022 ≤ k) (hk2 : k ≤ 1022) :
    IsFinite (q * ulp k) := by
  rcases hq.lt_or_eq with hq | hq
  · exact ⟨q, k - 52, hq, by omega, by omega, rfl⟩
  · -- `|q| = 2 ^ 53`: the same value with half the significand and twice the spacing
    have hhalf : |q / 2| = 2 ^ 52 ∧ (q : ℚ) = 2 * (q / 2 : ℤ) := by
      rcases abs_eq (by positivity) |>.mp hq with h | h <;> subst h <;> norm_num
    refine ⟨q / 2, k - 51, by omega, by omega, by omega, ?_⟩
    rw [ulp, show k - 52 = -1 + (k - 51) by ring, zpow_add₀ two_ne_zero, hhalf.2]
    ring

/-- **No double is nearer a real between two neighbours `q * ulp k ≤ r ≤ (q + 1) * ulp k` of
the binade `k` than the nearer of the two.** -/
theorem le_abs_sub_of_bracket {r : ℝ} {k q : ℤ} (hk : (2 : ℝ) ^ k ≤ r)
    (hhi : r ≤ ((q : ℝ) + 1) * ulp k) {d : ℚ} (hd : IsFinite d) :
    min (r - q * ulp k) ((q + 1) * ulp k - r) ≤ |(d : ℝ) - r| := by
  have hu : (0 : ℝ) < ulp k := by exact_mod_cast ulp_pos k
  have hbin : ((ulp k : ℚ) : ℝ) * 2 ^ 52 = 2 ^ k := by
    have h := congrArg (Rat.cast : ℚ → ℝ) (ulp_mul_two_pow k)
    push_cast at h
    exact h
  by_cases hq : q + 1 ≤ 2 ^ 52
  · -- the upper neighbour is `2 ^ k` itself, and so is `r`
    have hq' : ((q : ℝ) + 1) * ulp k ≤ 2 ^ k := by
      rw [← hbin, mul_comm (ulp k : ℝ)]
      gcongr
      exact_mod_cast hq
    have hr : ((q : ℝ) + 1) * ulp k - r = 0 := by linarith
    rw [hr]
    exact (min_le_right _ _).trans (abs_nonneg _)
  rcases le_or_gt (d : ℝ) (q * ulp k) with hd1 | hd1
  · -- below the lower neighbour
    calc min (r - q * ulp k) ((q + 1) * ulp k - r) ≤ r - q * ulp k := min_le_left _ _
      _ ≤ r - d := by linarith
      _ ≤ |(d : ℝ) - r| := by rw [abs_sub_comm]; exact le_abs_self _
  rcases le_or_gt (((q : ℝ) + 1) * ulp k) d with hd2 | hd2
  · -- above the upper neighbour
    calc min (r - q * ulp k) ((q + 1) * ulp k - r) ≤ (q + 1) * ulp k - r := min_le_right _ _
      _ ≤ d - r := by linarith
      _ ≤ |(d : ℝ) - r| := le_abs_self _
  -- strictly between the neighbours: `d` would be a multiple of `ulp k` between `q` and `q + 1`
  exfalso
  have hqk : (2 : ℝ) ^ k ≤ q * ulp k := by
    rw [← hbin, mul_comm (ulp k : ℝ)]
    gcongr
    exact_mod_cast (by omega : (2 : ℤ) ^ 52 ≤ q)
  have hdk : (2 : ℚ) ^ k ≤ |d| := by
    have h : (((2 : ℚ) ^ k : ℚ) : ℝ) ≤ ((|d| : ℚ) : ℝ) := by
      rw [Rat.cast_zpow, Rat.cast_abs, Rat.cast_ofNat]
      exact (hqk.trans hd1.le).trans (le_abs_self _)
    exact Rat.cast_le.mp h
  obtain ⟨j, hj⟩ := hd.exists_eq_mul_ulp hdk
  rw [hj] at hd1 hd2
  push_cast at hd1 hd2
  have h1 : (q : ℝ) < j := lt_of_mul_lt_mul_right hd1 hu.le
  have h2 : (j : ℝ) < q + 1 := lt_of_mul_lt_mul_right hd2 hu.le
  have h1' : q < j := by exact_mod_cast h1
  have h2' : j < q + 1 := by exact_mod_cast h2
  omega

/-- The neighbour `roundHalfEven` picks is the nearer of the two. -/
theorem abs_roundHalfEven_sub {r u : ℝ} {q : ℤ} (hlo : q * u ≤ r) (hhi : r ≤ (q + 1) * u)
    {below above : Bool} (hb : below = decide (2 * r < (2 * q + 1) * u))
    (ha : above = decide ((2 * q + 1) * u < 2 * r)) :
    |(roundHalfEven q below above : ℝ) * u - r| = min (r - q * u) ((q + 1) * u - r) := by
  unfold roundHalfEven
  split_ifs with h1 h2
  · subst hb
    simp only [decide_eq_true_eq] at h1
    rw [abs_sub_comm, abs_of_nonneg (by linarith), min_eq_left (by linarith)]
  · subst ha
    simp only [decide_eq_true_eq] at h2
    push_cast
    rw [abs_of_nonneg (by linarith), min_eq_right (by linarith)]
  all_goals
    subst hb ha
    simp only [decide_eq_true_eq] at h1 h2
    have hmid : 2 * r = (2 * q + 1) * u := le_antisymm (not_lt.mp h2) (not_lt.mp h1)
    push_cast
    first
    | rw [abs_sub_comm, abs_of_nonneg (by linarith), min_eq_left (by linarith)]
    | rw [abs_of_nonneg (by linarith), min_eq_right (by linarith)]

theorem roundHalfEven_mem (q : ℤ) (below above : Bool) :
    roundHalfEven q below above = q ∨ roundHalfEven q below above = q + 1 := by
  unfold roundHalfEven
  split_ifs <;> simp

/-- The neighbour picked in a normal binade is a double. -/
theorem isFinite_roundHalfEven_mul_ulp {q k : ℤ} (hq1 : 2 ^ 52 ≤ q) (hq2 : q < 2 ^ 53)
    (hk1 : -1022 ≤ k) (hk2 : k ≤ 1022) (below above : Bool) :
    IsFinite (roundHalfEven q below above * ulp k) := by
  rcases roundHalfEven_mem q below above with h | h <;> rw [h]
  · exact isFinite_mul_ulp (by rw [abs_le]; omega) hk1 hk2
  · exact_mod_cast isFinite_mul_ulp (q := q + 1) (by rw [abs_le]; omega) hk1 hk2

/-- The nearer neighbour, as a bound: a nearest double for every value between the neighbours,
read in `ℝ`. -/
theorem nearest_of_bracket {r : ℝ} {k q : ℤ} (hk : (2 : ℝ) ^ k ≤ r)
    (hlo : (q : ℝ) * ulp k ≤ r) (hhi : r ≤ ((q : ℝ) + 1) * ulp k) {below above : Bool}
    (hb : below = decide (2 * r < (2 * q + 1) * ulp k))
    (ha : above = decide ((2 * q + 1) * ulp k < 2 * r)) {d : ℚ} (hd : IsFinite d) :
    |((roundHalfEven q below above * ulp k : ℚ) : ℝ) - r| ≤ |(d : ℝ) - r| := by
  push_cast
  rw [abs_roundHalfEven_sub hlo hhi hb ha]
  exact le_abs_sub_of_bracket hk hhi hd

/-! ## Rounding a rational -/

/-- The binade of a positive rational of the normal range, and the neighbours around it. -/
theorem roundPos_bracket {x : ℚ} (h1 : 2 ^ (-1022 : ℤ) ≤ x) (h2 : x < 2 ^ (1023 : ℤ)) :
    -1022 ≤ Int.log 2 x ∧ Int.log 2 x ≤ 1022 ∧ 2 ^ Int.log 2 x ≤ x ∧
      (⌊x / ulp (Int.log 2 x)⌋ : ℚ) * ulp (Int.log 2 x) ≤ x ∧
      x < (⌊x / ulp (Int.log 2 x)⌋ + 1) * ulp (Int.log 2 x) ∧
      2 ^ 52 ≤ ⌊x / ulp (Int.log 2 x)⌋ ∧ ⌊x / ulp (Int.log 2 x)⌋ < 2 ^ 53 := by
  have hx : 0 < x := lt_of_lt_of_le (zpow_pos two_pos _) h1
  set k := Int.log 2 x
  have hk1 : (2 : ℚ) ^ k ≤ x := by exact_mod_cast Int.zpow_log_le_self one_lt_two hx
  have hk2 : x < (2 : ℚ) ^ (k + 1) := by exact_mod_cast Int.lt_zpow_succ_log_self one_lt_two x
  have hu := ulp_pos k
  have hbin := ulp_mul_two_pow k
  refine ⟨?_, ?_, hk1, ?_, ?_, ?_, ?_⟩
  · by_contra h
    have : (2 : ℚ) ^ (k + 1) ≤ 2 ^ (-1022 : ℤ) := zpow_le_zpow_right₀ one_le_two (by omega)
    linarith
  · by_contra h
    have : (2 : ℚ) ^ (1023 : ℤ) ≤ 2 ^ k := zpow_le_zpow_right₀ one_le_two (by omega)
    linarith
  · have := Int.floor_le (x / ulp k)
    rwa [le_div_iff₀ hu] at this
  · have := Int.lt_floor_add_one (x / ulp k)
    rwa [div_lt_iff₀ hu] at this
  · -- `x` is at least `2 ^ k = 2 ^ 52 * ulp k`
    rw [Int.le_floor, le_div_iff₀ hu]
    push_cast
    linarith
  · -- and below `2 ^ (k + 1) = 2 ^ 53 * ulp k`
    rw [Int.floor_lt, div_lt_iff₀ hu]
    have h53 : (2 : ℚ) ^ (k + 1) = 2 ^ 53 * ulp k := by
      rw [zpow_add_one₀ two_ne_zero, ← hbin]
      ring
    push_cast
    linarith

/-- The binade of `x` read off two bounds. -/
theorem log_eq_of_bounds {x : ℚ} {k : ℤ} (h1 : 2 ^ k ≤ x) (h2 : x < 2 ^ (k + 1)) :
    Int.log 2 x = k := by
  have hx : 0 < x := (zpow_pos two_pos k).trans_le h1
  have hle : k ≤ Int.log 2 x := (Int.zpow_le_iff_le_log one_lt_two hx).mp (by exact_mod_cast h1)
  have hlt : Int.log 2 x < k + 1 := (Int.lt_zpow_iff_log_lt one_lt_two hx).mp (by exact_mod_cast h2)
  omega

/-- `roundPos` in a known binade: the neighbours are multiples of `ulp k`. -/
theorem roundPos_of_bounds {x : ℚ} {k : ℤ} (h1 : 2 ^ k ≤ x) (h2 : x < 2 ^ (k + 1)) :
    roundPos x = roundHalfEven ⌊x / ulp k⌋ (decide (2 * x < (2 * ⌊x / ulp k⌋ + 1) * ulp k))
      (decide ((2 * ⌊x / ulp k⌋ + 1) * ulp k < 2 * x)) * ulp k := by
  rw [roundPos, log_eq_of_bounds h1 h2]

/-- **`roundPos` returns a nearest double** to a positive rational of the normal range. -/
theorem roundPos_nearest {x : ℚ} (h1 : 2 ^ (-1022 : ℤ) ≤ x) (h2 : x < 2 ^ (1023 : ℤ)) :
    IsFinite (roundPos x) ∧ ∀ d, IsFinite d → |(roundPos x : ℝ) - x| ≤ |(d : ℝ) - x| := by
  obtain ⟨hk1, hk2, hbin, hlo, hhi, hq1, hq2⟩ := roundPos_bracket h1 h2
  refine ⟨isFinite_roundHalfEven_mul_ulp hq1 hq2 hk1 hk2 _ _, fun d hd => ?_⟩
  have hbin' : ((2 ^ Int.log 2 x : ℚ) : ℝ) ≤ (x : ℝ) := Rat.cast_le.mpr hbin
  rw [Rat.cast_zpow, Rat.cast_ofNat] at hbin'
  refine nearest_of_bracket hbin' (by exact_mod_cast hlo) (by exact_mod_cast hhi.le) ?_ ?_ hd
  · rw [decide_eq_decide]
    norm_cast
  · rw [decide_eq_decide]
    norm_cast

/-- The neighbour picked is at most one `u` above a value at or above the lower one. -/
theorem roundHalfEven_mul_le {q : ℤ} {u x : ℚ} (hu : 0 ≤ u) (hq : q * u ≤ x) (below above : Bool) :
    (roundHalfEven q below above : ℚ) * u ≤ x + u := by
  rcases roundHalfEven_mem q below above with h | h <;> rw [h]
  · linarith
  · push_cast
    linarith

/-- The spacing of a positive rational's binade is at most `2 ^ -52` of it. -/
theorem ulp_log_le {x : ℚ} (hx : 0 < x) : ulp (Int.log 2 x) ≤ x / 2 ^ 52 := by
  have hk : (2 : ℚ) ^ Int.log 2 x ≤ x := Int.zpow_log_le_self one_lt_two hx
  rw [le_div_iff₀ (by positivity), ulp_mul_two_pow]
  exact hk

/-- Rounding a positive rational raises it by at most `2 ^ -52` of itself: the upper neighbour
is one ulp above the lower one. -/
theorem roundPos_le_add {x : ℚ} (hx : 0 < x) : roundPos x ≤ x + x / 2 ^ 52 := by
  have hu := ulp_pos (Int.log 2 x)
  have hq : (⌊x / ulp (Int.log 2 x)⌋ : ℚ) * ulp (Int.log 2 x) ≤ x := by
    have := Int.floor_le (x / ulp (Int.log 2 x))
    rwa [le_div_iff₀ hu] at this
  unfold roundPos
  dsimp only
  exact (roundHalfEven_mul_le hu.le hq _ _).trans (by linarith [ulp_log_le hx])

/-- Rounding a positive rational lowers it by at most `2 ^ -52` of itself: the lower neighbour
is less than one ulp below it. -/
theorem sub_le_roundPos {x : ℚ} (hx : 0 < x) : x - x / 2 ^ 52 ≤ roundPos x := by
  have hu := ulp_pos (Int.log 2 x)
  have hq : x < (⌊x / ulp (Int.log 2 x)⌋ + 1 : ℚ) * ulp (Int.log 2 x) := by
    have := Int.lt_floor_add_one (x / ulp (Int.log 2 x))
    rwa [div_lt_iff₀ hu] at this
  have hux := ulp_log_le hx
  unfold roundPos
  dsimp only
  rcases roundHalfEven_mem ⌊x / ulp (Int.log 2 x)⌋
    (decide (2 * x < (2 * ⌊x / ulp (Int.log 2 x)⌋ + 1) * ulp (Int.log 2 x)))
    (decide ((2 * ⌊x / ulp (Int.log 2 x)⌋ + 1) * ulp (Int.log 2 x) < 2 * x)) with h | h <;>
    rw [h] <;> push_cast <;> nlinarith

/-- Rounding a positive rational at most doubles it. -/
theorem roundPos_le_two_mul {x : ℚ} (hx : 0 < x) : roundPos x ≤ 2 * x := by
  have := roundPos_le_add hx
  have : x / 2 ^ 52 ≤ x := div_le_self hx.le (by norm_num)
  linarith

theorem round_le_two_mul {x : ℚ} (hx : 0 < x) : round x ≤ 2 * x := by
  rw [round, if_pos hx]
  exact roundPos_le_two_mul hx

@[simp] theorem round_zero : round 0 = 0 := by simp [round]

/-- `round` of a positive rational is within `2 ^ -52` of it. -/
theorem round_bounds_of_pos {x : ℚ} (hx : 0 < x) :
    x - x / 2 ^ 52 ≤ round x ∧ round x ≤ x + x / 2 ^ 52 := by
  rw [round, if_pos hx]
  exact ⟨sub_le_roundPos hx, roundPos_le_add hx⟩

/-- `round` keeps a non-positive rational non-positive. -/
theorem round_nonpos {x : ℚ} (hx : x ≤ 0) : round x ≤ 0 := by
  rw [round, if_neg (not_lt.mpr hx)]
  split_ifs with h
  · have := sub_le_roundPos (neg_pos.mpr h)
    have : -x / 2 ^ 52 < -x := div_lt_self (neg_pos.mpr h) (by norm_num)
    linarith
  · exact le_refl 0

theorem IsFinite.neg {x : ℚ} (hx : IsFinite x) : IsFinite (-x) := by
  obtain ⟨m, e, hm, he1, he2, rfl⟩ := hx
  exact ⟨-m, e, by rwa [abs_neg], he1, he2, by push_cast; ring⟩

/-- **`round` returns a nearest double** to a rational of the normal range. -/
theorem round_nearest {x : ℚ} (h1 : 2 ^ (-1022 : ℤ) ≤ |x|) (h2 : |x| < 2 ^ (1023 : ℤ)) :
    IsFinite (round x) ∧ ∀ d, IsFinite d → |(round x : ℝ) - x| ≤ |(d : ℝ) - x| := by
  rcases lt_trichotomy x 0 with hx | rfl | hx
  · -- rounding is symmetric: round `-x` and negate
    rw [abs_of_neg hx] at h1 h2
    obtain ⟨hf, hn⟩ := roundPos_nearest h1 h2
    rw [round, if_neg (not_lt.mpr hx.le), if_pos hx]
    refine ⟨hf.neg, fun d hd => ?_⟩
    have h := hn (-d) hd.neg
    push_cast at h ⊢
    calc |-(roundPos (-x) : ℝ) - x| = |(roundPos (-x) : ℝ) - -x| := by
          rw [← abs_neg]
          ring_nf
      _ ≤ |-(d : ℝ) - -x| := h
      _ = |(d : ℝ) - x| := by
          rw [← abs_neg]
          ring_nf
  · rw [abs_zero] at h1
    exact absurd h1 (not_le.mpr (zpow_pos two_pos _))
  · rw [abs_of_pos hx] at h1 h2
    rw [round, if_pos hx]
    exact roundPos_nearest h1 h2

/-- A double of the normal range converts to itself. -/
theorem round_eq_self {x : ℚ} (hx : IsFinite x) (h1 : 2 ^ (-1022 : ℤ) ≤ |x|)
    (h2 : |x| < 2 ^ (1023 : ℤ)) : round x = x := by
  have h := (round_nearest h1 h2).2 x hx
  rw [sub_self, abs_zero, abs_nonpos_iff, sub_eq_zero] at h
  exact_mod_cast h

/-- **The nearest double is unique within half an ulp**: a double `a` nearer than half an ulp of
its binade to `r` is the only one at least as near. -/
theorem eq_of_abs_sub_le {r : ℝ} {a b : ℚ} (ha : IsFinite a) (hb : IsFinite b) {k : ℤ}
    (hka : 2 ^ k + ulp k ≤ a) (har : 2 * |(a : ℝ) - r| < ulp k)
    (hab : |(b : ℝ) - r| ≤ |(a : ℝ) - r|) : b = a := by
  have hba' : |(b : ℝ) - a| < ulp k := by
    have h := abs_sub_le (b : ℝ) r a
    rw [abs_sub_comm r] at h
    linarith
  have hba : |b - a| < ulp k := by exact_mod_cast hba'
  -- both are multiples of `ulp k`, less than one `ulp k` apart
  have hu := ulp_pos k
  have hk : (0 : ℚ) < 2 ^ k := zpow_pos two_pos k
  obtain ⟨i, hi⟩ := ha.exists_eq_mul_ulp (by rw [abs_of_pos (by linarith)]; linarith)
  have hbk : 2 ^ k ≤ b := by linarith [(abs_lt.mp hba).1]
  obtain ⟨j, hj⟩ := hb.exists_eq_mul_ulp (by rw [abs_of_pos (by linarith)]; exact hbk)
  rw [hi, hj, ← sub_mul, abs_mul, abs_of_pos hu, mul_lt_iff_lt_one_left hu] at hba
  have hji : |j - i| < 1 := by exact_mod_cast hba
  rw [hi, hj, show j = i by rw [abs_lt] at hji; omega]

/-! ## Square root -/

/-- The range of the finite doubles. -/
theorem IsFinite.abs_lt {x : ℚ} (hx : IsFinite x) : |x| < 2 ^ (1024 : ℤ) := by
  obtain ⟨m, e, hm, -, he, rfl⟩ := hx
  rw [abs_mul, abs_of_pos (zpow_pos (two_pos : (0 : ℚ) < 2) e)]
  calc |(m : ℚ)| * 2 ^ e < 2 ^ (53 : ℤ) * 2 ^ e := by
        gcongr
        exact_mod_cast hm
    _ = 2 ^ (e + 53) := by rw [← zpow_add₀ two_ne_zero, add_comm]
    _ ≤ 2 ^ (1024 : ℤ) := zpow_le_zpow_right₀ one_le_two (by omega)

/-- The least positive double is `2 ^ (-1074)`. -/
theorem IsFinite.two_zpow_le {x : ℚ} (hx : IsFinite x) (h0 : 0 < x) : 2 ^ (-1074 : ℤ) ≤ x := by
  obtain ⟨m, e, -, he, -, rfl⟩ := hx
  have hm : 0 < m := by
    by_contra h
    have : (m : ℚ) * 2 ^ e ≤ 0 :=
      mul_nonpos_of_nonpos_of_nonneg (by exact_mod_cast not_lt.mp h) (zpow_pos two_pos e).le
    linarith
  calc (2 : ℚ) ^ (-1074 : ℤ) ≤ 2 ^ e := zpow_le_zpow_right₀ one_le_two he
    _ = 1 * 2 ^ e := (one_mul _).symm
    _ ≤ m * 2 ^ e := by
        gcongr
        exact_mod_cast hm

/-- The binade of `√x` for a positive double `x`, and the neighbours of `√x` there: `s` is half
the binade of `x`, and `q` the integer square root of `x / ulp s ^ 2`. -/
theorem sqrt_bracket {x : ℚ} (hx : IsFinite x) (h0 : 0 < x) {s q : ℤ} (hs : s = Int.log 2 x / 2)
    (hq : q = Nat.sqrt ⌊x / ulp s ^ 2⌋₊) :
    -1022 ≤ s ∧ s ≤ 1022 ∧ (2 : ℝ) ^ s ≤ √(x : ℝ) ∧ (q : ℝ) * ulp s ≤ √(x : ℝ) ∧
      √(x : ℝ) < (q + 1) * ulp s ∧ 2 ^ 52 ≤ q ∧ q < 2 ^ 53 := by
  set L := Int.log 2 x
  have hL1 : (2 : ℚ) ^ L ≤ x := Int.zpow_log_le_self one_lt_two h0
  have hL2 : x < (2 : ℚ) ^ (L + 1) := Int.lt_zpow_succ_log_self one_lt_two x
  have hlo := hx.two_zpow_le h0
  have hhi : x < 2 ^ (1024 : ℤ) := (le_abs_self x).trans_lt hx.abs_lt
  have hLlo : -1074 ≤ L := by
    by_contra h
    linarith [zpow_le_zpow_right₀ (one_le_two : (1 : ℚ) ≤ 2) (by omega : L + 1 ≤ -1074)]
  have hLhi : L ≤ 1023 := by
    by_contra h
    linarith [zpow_le_zpow_right₀ (one_le_two : (1 : ℚ) ≤ 2) (by omega : (1024 : ℤ) ≤ L)]
  -- `x` lies in `[2 ^ (2 * s), 2 ^ (2 * s + 2))`
  have hx1 : (2 : ℚ) ^ (2 * s) ≤ x :=
    (zpow_le_zpow_right₀ one_le_two (by omega)).trans hL1
  have hx2 : x < (2 : ℚ) ^ (2 * s + 2) :=
    hL2.trans_le (zpow_le_zpow_right₀ one_le_two (by omega))
  set u := ulp s
  have hu := ulp_pos s
  have hsq : ∀ t : ℤ, ((2 : ℚ) ^ t) ^ 2 = 2 ^ (2 * t) := fun t => by
    rw [← zpow_natCast, ← zpow_mul, mul_comm]
    rfl
  -- `q` is the integer square root of `⌊x / u ^ 2⌋`, so `q ^ 2 ≤ x / u ^ 2 < (q + 1) ^ 2`
  have hn1 : ((Nat.sqrt ⌊x / u ^ 2⌋₊ ^ 2 : ℕ) : ℚ) ≤ x / u ^ 2 :=
    (Nat.cast_le.mpr (Nat.sqrt_le' _)).trans (Nat.floor_le (by positivity))
  have hn2 : x / u ^ 2 < ((Nat.sqrt ⌊x / u ^ 2⌋₊ + 1) ^ 2 : ℕ) :=
    (Nat.lt_floor_add_one _).trans_le (by exact_mod_cast Nat.lt_succ_sqrt' _)
  rw [le_div_iff₀ (by positivity)] at hn1
  rw [div_lt_iff₀ (by positivity)] at hn2
  have hqq : (q : ℚ) = (Nat.sqrt ⌊x / u ^ 2⌋₊ : ℚ) := by
    rw [hq]
    push_cast
    rfl
  push_cast at hn1 hn2
  rw [← hqq] at hn1 hn2
  have hqlo : ((q : ℝ) * u) ^ 2 ≤ x := by
    rw [mul_pow]
    exact_mod_cast hn1
  have hqhi : (x : ℝ) < (((q : ℝ) + 1) * u) ^ 2 := by
    rw [mul_pow]
    exact_mod_cast hn2
  have hslo : ((2 : ℝ) ^ s) ^ 2 ≤ x := by
    have h : ((((2 : ℚ) ^ s) ^ 2 : ℚ) : ℝ) ≤ x := Rat.cast_le.mpr (by rw [hsq]; exact hx1)
    rwa [Rat.cast_pow, Rat.cast_zpow, Rat.cast_ofNat] at h
  have hshi : (x : ℝ) < ((2 : ℝ) ^ (s + 1)) ^ 2 := by
    have h : (x : ℝ) < ((((2 : ℚ) ^ (s + 1)) ^ 2 : ℚ) : ℝ) :=
      Rat.cast_lt.mpr (by rw [hsq]; convert hx2 using 2; ring)
    rwa [Rat.cast_pow, Rat.cast_zpow, Rat.cast_ofNat] at h
  have hu' : (0 : ℝ) < u := by exact_mod_cast hu
  have hs2 : (2 : ℝ) ^ s ≤ √(x : ℝ) := Real.le_sqrt (by positivity) (by positivity) |>.mpr hslo
  have hs3 : √(x : ℝ) < 2 ^ (s + 1) := (Real.sqrt_lt' (by positivity)).mpr hshi
  have hq1 : (q : ℝ) * u ≤ √(x : ℝ) := by
    rcases le_or_gt q 0 with h | h
    · have : (q : ℝ) * u ≤ 0 := mul_nonpos_of_nonpos_of_nonneg (by exact_mod_cast h) hu'.le
      linarith [Real.sqrt_nonneg (x : ℝ)]
    · exact Real.le_sqrt (by positivity) (by positivity) |>.mpr hqlo
  have hq2 : √(x : ℝ) < (q + 1) * u := by
    refine (Real.sqrt_lt' ?_).mpr hqhi
    have : (0 : ℝ) ≤ q := by rw [hq]; positivity
    positivity
  -- the binade `[2 ^ s, 2 ^ (s + 1))` holds `2 ^ 52` to `2 ^ 53` multiples of `u`
  have hbin : (2 : ℝ) ^ s = 2 ^ 52 * u := by
    have h := congrArg (Rat.cast : ℚ → ℝ) (ulp_mul_two_pow s)
    push_cast at h
    rw [← h, mul_comm]
  have hbin' : (2 : ℝ) ^ (s + 1) = 2 ^ 53 * u := by
    rw [zpow_add_one₀ two_ne_zero, hbin]
    ring
  refine ⟨by omega, by omega, hs2, hq1, hq2, ?_, ?_⟩
  · have h : (2 : ℝ) ^ 52 < q + 1 := lt_of_mul_lt_mul_right (by linarith) hu'.le
    have h' : (2 : ℤ) ^ 52 < q + 1 := by exact_mod_cast h
    omega
  · have h : (q : ℝ) < 2 ^ 53 := lt_of_mul_lt_mul_right (by linarith) hu'.le
    exact_mod_cast h

/-- Comparing `2 * √x` with the midpoint `(2 * q + 1) * u` of two neighbours by squaring, as
`sqrt` does in `ℚ`. -/
theorem decide_sqrt_below {x u : ℚ} (hx : 0 ≤ x) (hu : 0 < u) {q : ℤ} (hq : 0 ≤ q) :
    decide (4 * x < (2 * q + 1) ^ 2 * u ^ 2) = decide (2 * √(x : ℝ) < (2 * q + 1) * u) := by
  have hx' : (0 : ℝ) ≤ x := by exact_mod_cast hx
  have hm : (0 : ℝ) ≤ (2 * q + 1) * u := by
    have : (0 : ℝ) < u := by exact_mod_cast hu
    have : (0 : ℝ) ≤ q := by exact_mod_cast hq
    positivity
  rw [decide_eq_decide, ← sq_lt_sq₀ (by positivity) hm]
  simp only [mul_pow, Real.sq_sqrt hx']
  norm_num
  norm_cast

theorem decide_sqrt_above {x u : ℚ} (hx : 0 ≤ x) (hu : 0 < u) {q : ℤ} (hq : 0 ≤ q) :
    decide ((2 * q + 1) ^ 2 * u ^ 2 < 4 * x) = decide ((2 * q + 1) * u < 2 * √(x : ℝ)) := by
  have hx' : (0 : ℝ) ≤ x := by exact_mod_cast hx
  have hm : (0 : ℝ) ≤ (2 * q + 1) * u := by
    have : (0 : ℝ) < u := by exact_mod_cast hu
    have : (0 : ℝ) ≤ q := by exact_mod_cast hq
    positivity
  rw [decide_eq_decide, ← sq_lt_sq₀ hm (by positivity)]
  simp only [mul_pow, Real.sq_sqrt hx']
  norm_num
  norm_cast

theorem isFinite_zero : IsFinite 0 := ⟨0, 0, by norm_num, by norm_num, by norm_num, by simp⟩

/-- **`sqrt` returns a nearest double** to the square root of a non-negative double. -/
theorem sqrt_nearest {x : ℚ} (hx : IsFinite x) (h0 : 0 ≤ x) :
    IsFinite (sqrt x) ∧ ∀ d, IsFinite d → |(sqrt x : ℝ) - √(x : ℝ)| ≤ |(d : ℝ) - √(x : ℝ)| := by
  rcases h0.lt_or_eq with h0 | rfl
  swap
  · rw [sqrt, if_pos le_rfl]
    simpa using isFinite_zero
  obtain ⟨hk1, hk2, hs, hlo, hhi, hq1, hq2⟩ := sqrt_bracket hx h0 rfl rfl
  rw [sqrt, if_neg (not_le.mpr h0)]
  refine ⟨isFinite_roundHalfEven_mul_ulp hq1 hq2 hk1 hk2 _ _, fun d hd => ?_⟩
  have hq0 : (0 : ℤ) ≤ Nat.sqrt ⌊x / ulp (Int.log 2 x / 2) ^ 2⌋₊ := by positivity
  refine nearest_of_bracket hs hlo hhi.le ?_ ?_ hd
  · exact_mod_cast decide_sqrt_below h0.le (ulp_pos _) hq0
  · exact_mod_cast decide_sqrt_above h0.le (ulp_pos _) hq0

/-! ## Values known to be doubles

The lemmas the modelled code's concrete inputs are evaluated with: an integer that fits the
significand converts to itself, a double nearer than half an ulp to the exact result is the
rounded result, and a conversion to an integer type keeps an integer.
-/

theorem isFinite_intCast {n : ℤ} (h : |n| < 2 ^ 53) : IsFinite n :=
  ⟨n, 0, h, by norm_num, by norm_num, by simp⟩

/-- An integer of magnitude below `2 ^ 53` converts to the double of its value. -/
theorem round_intCast {n : ℤ} (h : |n| < 2 ^ 53) : round n = n := by
  rcases eq_or_ne n 0 with rfl | hn
  · simp [round]
  refine round_eq_self (isFinite_intCast h) ?_ ?_
  · have h1 : (1 : ℚ) ≤ |(n : ℚ)| := by exact_mod_cast Int.one_le_abs hn
    exact (zpow_le_one_of_nonpos₀ one_le_two (by norm_num)).trans h1
  · have h53 : |(n : ℚ)| < 2 ^ (53 : ℤ) := by exact_mod_cast h
    exact h53.trans_le (zpow_le_zpow_right₀ one_le_two (by norm_num))

theorem isFinite_natCast {n : ℕ} (h : n < 2 ^ 53) : IsFinite n := by
  have h' : |(n : ℤ)| < 2 ^ 53 := by
    rw [abs_of_nonneg (by positivity)]
    exact_mod_cast h
  exact_mod_cast isFinite_intCast h'

theorem round_natCast {n : ℕ} (h : n < 2 ^ 53) : round n = n := by
  have h' : |(n : ℤ)| < 2 ^ 53 := by
    rw [abs_of_nonneg (by positivity)]
    exact_mod_cast h
  exact_mod_cast round_intCast h'

/-! ## Multiples of a power of two

The values an exact computation on doubles meets: integers times `2 ^ s`. Below `2 ^ (s + 53)`
such a value is a double, so an operation with that exact result is exact. -/

/-- `x` is an integer multiple of `2 ^ s`. -/
def IsDyadic (s : ℤ) (x : ℚ) : Prop := ∃ j : ℤ, x = j * 2 ^ s

theorem IsDyadic.of_le {s s' : ℤ} {x : ℚ} (hx : IsDyadic s x) (h : s' ≤ s) : IsDyadic s' x := by
  obtain ⟨j, rfl⟩ := hx
  refine ⟨j * 2 ^ (s - s').toNat, ?_⟩
  push_cast
  rw [mul_assoc, ← zpow_natCast, ← zpow_add₀ two_ne_zero, Int.toNat_of_nonneg (by omega),
    sub_add_cancel]

theorem IsDyadic.sub {s : ℤ} {x y : ℚ} (hx : IsDyadic s x) (hy : IsDyadic s y) :
    IsDyadic s (x - y) := by
  obtain ⟨i, rfl⟩ := hx
  obtain ⟨j, rfl⟩ := hy
  exact ⟨i - j, by push_cast; ring⟩

theorem IsDyadic.mul_two_zpow {s : ℤ} {x : ℚ} (hx : IsDyadic s x) (t : ℤ) :
    IsDyadic (s + t) (x * 2 ^ t) := by
  obtain ⟨j, rfl⟩ := hx
  exact ⟨j, by rw [zpow_add₀ two_ne_zero]; ring⟩

theorem isDyadic_intCast {s : ℤ} (hs : s ≤ 0) (n : ℤ) : IsDyadic s n :=
  IsDyadic.of_le ⟨n, by simp⟩ hs

/-- **A multiple of `2 ^ s` below `2 ^ (s + 53)` is a double and converts to itself**, in the
normal range. -/
theorem round_eq_of_isDyadic {x : ℚ} {s : ℤ} (hx : IsDyadic s x) (hs1 : -1022 ≤ s)
    (hs2 : s ≤ 971) (h1 : |x| < 2 ^ (s + 53)) (h2 : |x| < 2 ^ (1023 : ℤ)) : round x = x := by
  obtain ⟨j, hx⟩ := hx
  rcases eq_or_ne j 0 with rfl | hj
  · rw [hx, Int.cast_zero, zero_mul, round_zero]
  have hs : (0 : ℚ) < 2 ^ s := zpow_pos two_pos s
  have hxj : |x| = |(j : ℚ)| * 2 ^ s := by rw [hx, abs_mul, abs_of_pos hs]
  have hfin : IsFinite x := by
    refine ⟨j, s, ?_, by omega, hs2, hx⟩
    have h : |(j : ℚ)| * 2 ^ s < 2 ^ (53 : ℤ) * 2 ^ s := by
      rw [← hxj, ← zpow_add₀ two_ne_zero, add_comm]
      exact h1
    have h' : |(j : ℚ)| < 2 ^ (53 : ℤ) := lt_of_mul_lt_mul_right h hs.le
    exact_mod_cast h'
  refine round_eq_self hfin ?_ h2
  calc (2 : ℚ) ^ (-1022 : ℤ) ≤ 2 ^ s := zpow_le_zpow_right₀ one_le_two hs1
    _ = 1 * 2 ^ s := (one_mul _).symm
    _ ≤ |(j : ℚ)| * 2 ^ s := by
        gcongr
        exact_mod_cast Int.one_le_abs hj
    _ = |x| := hxj.symm

/-- A double of a normal binade nearer than half its ulp to a rational is its rounding. -/
theorem round_eq_of_near {x a : ℚ} (ha : IsFinite a) {k : ℤ} (hka : 2 ^ k + ulp k ≤ a)
    (hx : 2 * |a - x| < ulp k) (h1 : 2 ^ (-1022 : ℤ) ≤ x) (h2 : x < 2 ^ (1023 : ℤ)) :
    round x = a := by
  have hx0 : 0 < x := (zpow_pos two_pos _).trans_le h1
  obtain ⟨hf, hn⟩ := round_nearest (by rwa [abs_of_pos hx0]) (by rwa [abs_of_pos hx0])
  refine eq_of_abs_sub_le ha hf hka ?_ (hn a ha)
  exact_mod_cast hx

/-- A double of a normal binade nearer than half its ulp to `√x` is `sqrt x`. -/
theorem sqrt_eq_of_near {x a : ℚ} (hx : IsFinite x) (h0 : 0 ≤ x) (ha : IsFinite a) {k : ℤ}
    (hka : 2 ^ k + ulp k ≤ a) (h1 : (a - ulp k / 2) ^ 2 < x) (h2 : x < (a + ulp k / 2) ^ 2) :
    sqrt x = a := by
  have hu := ulp_pos k
  have hk : (0 : ℚ) < 2 ^ k := zpow_pos two_pos k
  -- `√x` lies within half an ulp of `a`
  have hlo : ((a - ulp k / 2 : ℚ) : ℝ) < √(x : ℝ) := by
    refine (Real.lt_sqrt ?_).mpr (by exact_mod_cast h1)
    have : (0 : ℚ) ≤ a - ulp k / 2 := by linarith
    exact_mod_cast this
  have hhi : √(x : ℝ) < ((a + ulp k / 2 : ℚ) : ℝ) := by
    refine (Real.sqrt_lt' ?_).mpr (by exact_mod_cast h2)
    have : (0 : ℚ) < a + ulp k / 2 := by linarith
    exact_mod_cast this
  have hnear : 2 * |(a : ℝ) - √(x : ℝ)| < ulp k := by
    push_cast at hlo hhi
    have h := abs_sub_lt_iff.mpr (⟨by linarith, by linarith⟩ :
      (a : ℝ) - √(x : ℝ) < ulp k / 2 ∧ √(x : ℝ) - a < ulp k / 2)
    linarith
  obtain ⟨hf, hn⟩ := sqrt_nearest hx h0
  exact eq_of_abs_sub_le ha hf hka hnear (hn a ha)

/-- A nearest double is at or above every double at or below the exact value. -/
theorem le_nearest {r : ℝ} {f d : ℚ} (hf : ∀ d, IsFinite d → |(f : ℝ) - r| ≤ |(d : ℝ) - r|)
    (hd : IsFinite d) (hdr : (d : ℝ) ≤ r) : d ≤ f := by
  by_contra h
  have hfd : (f : ℝ) < d := by exact_mod_cast not_le.mp h
  have h' := hf d hd
  rw [abs_of_nonpos (by linarith), abs_of_nonpos (by linarith)] at h'
  linarith

/-- A nearest double is at or below every double at or above the exact value. -/
theorem nearest_le {r : ℝ} {f d : ℚ} (hf : ∀ d, IsFinite d → |(f : ℝ) - r| ≤ |(d : ℝ) - r|)
    (hd : IsFinite d) (hrd : r ≤ d) : f ≤ d := by
  by_contra h
  have hdf : (d : ℝ) < f := by exact_mod_cast not_le.mp h
  have h' := hf d hd
  rw [abs_of_nonneg (by linarith), abs_of_nonneg (by linarith)] at h'
  linarith

/-- The integral part towards zero, as bounds: between it and the next integer away from zero. -/
theorem truncate_le_of_nonneg {d : ℚ} (h : 0 ≤ d) : (truncate d : ℚ) ≤ d ∧ d < truncate d + 1 := by
  rw [truncate, if_pos h]
  exact ⟨Int.floor_le d, Int.lt_floor_add_one d⟩

theorem le_truncate_of_neg {d : ℚ} (h : d < 0) : (truncate d : ℚ) - 1 < d ∧ d ≤ truncate d := by
  rw [truncate, if_neg (not_le.mpr h)]
  exact ⟨by linarith [Int.ceil_lt_add_one d], Int.le_ceil d⟩

/-- An integer below the integral part is below the value. -/
theorem lt_of_lt_truncate {d : ℚ} {x : ℤ} (h : x < truncate d) : (x : ℚ) < d := by
  have h' : (x : ℚ) + 1 ≤ truncate d := by exact_mod_cast h
  rcases le_or_gt 0 d with hd | hd
  · linarith [(truncate_le_of_nonneg hd).1]
  · linarith [(le_truncate_of_neg hd).1]

/-- An integer above the integral part is above the value. -/
theorem lt_of_truncate_lt {d : ℚ} {x : ℤ} (h : truncate d < x) : d < x := by
  have h' : (truncate d : ℚ) + 1 ≤ x := by exact_mod_cast h
  rcases le_or_gt 0 d with hd | hd
  · linarith [(truncate_le_of_nonneg hd).2]
  · linarith [(le_truncate_of_neg hd).2]

theorem truncate_intCast (n : ℤ) : truncate n = n := by
  unfold truncate
  split_ifs <;> simp

theorem abs_truncate_le (d : ℚ) : |(truncate d : ℚ)| ≤ |d| := by
  rcases le_or_gt 0 d with hd | hd
  · have h := truncate_le_of_nonneg hd
    have h0 : (0 : ℚ) ≤ truncate d := by
      rw [truncate, if_pos hd]
      exact_mod_cast Int.floor_nonneg.mpr hd
    rw [abs_of_nonneg h0, abs_of_nonneg hd]
    exact h.1
  · have h := le_truncate_of_neg hd
    have h0 : (truncate d : ℚ) ≤ 0 := by
      rw [truncate, if_neg (not_le.mpr hd)]
      exact_mod_cast Int.ceil_le.mpr (by push_cast; exact hd.le)
    rw [abs_of_nonpos h0, abs_of_neg hd]
    linarith [h.2]

/-- **The integral part of a double is a double**: a double of magnitude `2 ^ 53` or more is an
integer, and one below has an integral part below `2 ^ 53`. -/
theorem IsFinite.truncate {d : ℚ} (hd : IsFinite d) : IsFinite (truncate d) := by
  obtain ⟨m, e, hm, he1, he2, rfl⟩ := hd
  rcases le_or_gt 0 e with he | he
  · -- an integer
    have hint : (m : ℚ) * 2 ^ e = ((m * 2 ^ e.toNat : ℤ) : ℚ) := by
      push_cast
      rw [← zpow_natCast, Int.toNat_of_nonneg he]
    rw [hint, truncate_intCast, ← hint]
    exact ⟨m, e, hm, he1, he2, rfl⟩
  · -- below `|m|`, so its integral part is below `2 ^ 53`
    refine isFinite_intCast ?_
    have hlt : |(m : ℚ) * 2 ^ e| < 2 ^ 53 := by
      rw [abs_mul, abs_of_pos (zpow_pos two_pos e : (0 : ℚ) < 2 ^ e)]
      have h1 : (2 : ℚ) ^ e ≤ 1 := zpow_le_one_of_nonpos₀ one_le_two he.le
      have h2 : |(m : ℚ)| < 2 ^ 53 := by exact_mod_cast hm
      nlinarith [abs_nonneg (m : ℚ), zpow_pos (two_pos : (0 : ℚ) < 2) e]
    have h := (abs_truncate_le ((m : ℚ) * 2 ^ e)).trans_lt hlt
    exact_mod_cast h

end Binary64
