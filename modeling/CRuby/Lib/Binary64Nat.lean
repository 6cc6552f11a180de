import CRuby.Lib.Binary64
import Mathlib.Data.Nat.Size

/-!
# Rounding a natural number to a double

A natural number `m` of the binade `[2 ^ (j + 52), 2 ^ (j + 53))` rounds to `m / 2 ^ j` or one
more, times `2 ^ j`, chosen by its remainder `m % 2 ^ j` against half of `2 ^ j`
(`roundPos_natCast`). Code that rounds a long integer by hand keeps the bits above the guard bit
`j - 1`, the guard bit, and whether some bit below it is set (the sticky bit); these lemmas say
why that is enough. They name no program.

* A multiple of `2 ^ j` up to `2 ^ (j + 53)` converts to itself (`round_natCast_of_dvd`).
* The bits below `2 ^ a` can be cut off when they are all clear, or when the guard bit is
  (`round_natCast_div_two_pow`); a set guard bit with a sticky bit rounds up
  (`round_natCast_of_sticky`).
* `round` reaches `2 ^ 1024`, past the largest double, exactly from `2 ^ 1024 - 2 ^ 970` on
  (`two_pow_le_round_natCast_iff`).
-/

namespace Binary64

/-- The remainder by `2 ^ (t + 1)` is the bit `t` over the remainder by `2 ^ t`. -/
theorem mod_two_pow_succ (x t : ℕ) : x % 2 ^ (t + 1) = x % 2 ^ t + 2 ^ t * (x / 2 ^ t % 2) :=
  Nat.mod_pow_succ

theorem round_of_pos {x : ℚ} (hx : 0 < x) : round x = roundPos x := by
  rw [round, if_pos hx]

theorem round_neg (x : ℚ) : round (-x) = -round x := by
  rcases lt_trichotomy x 0 with hx | rfl | hx
  · rw [round_of_pos (neg_pos.mpr hx), round, if_neg (not_lt.mpr hx.le), if_pos hx, neg_neg]
  · simp
  · rw [round_of_pos hx, round, if_neg (not_lt.mpr (neg_nonpos.mpr hx.le)), if_pos (neg_lt_zero.mpr hx),
      neg_neg]

/-- **Rounding a natural number of the binade `[2 ^ (j + 52), 2 ^ (j + 53))`**: its quotient by
`2 ^ j` or one more, by the remainder against half of `2 ^ j`. -/
theorem roundPos_natCast {m j : ℕ} (h1 : 2 ^ (j + 52) ≤ m) (h2 : m < 2 ^ (j + 53)) :
    roundPos m = roundHalfEven (m / 2 ^ j : ℕ) (decide (2 * (m % 2 ^ j) < 2 ^ j))
      (decide (2 ^ j < 2 * (m % 2 ^ j))) * (2 ^ j : ℕ) := by
  have hk1 : (2 : ℚ) ^ ((j + 52 : ℕ) : ℤ) ≤ m := by
    rw [zpow_natCast]
    exact_mod_cast h1
  have hk2 : (m : ℚ) < 2 ^ (((j + 52 : ℕ) : ℤ) + 1) := by
    rw [show ((j + 52 : ℕ) : ℤ) + 1 = ((j + 53 : ℕ) : ℤ) by push_cast; ring, zpow_natCast]
    exact_mod_cast h2
  have hu : ulp (j + 52 : ℕ) = ((2 ^ j : ℕ) : ℚ) := by
    rw [ulp, show ((j + 52 : ℕ) : ℤ) - 52 = (j : ℤ) by push_cast; ring, zpow_natCast]
    push_cast
    rfl
  rw [roundPos_of_bounds hk1 hk2, hu, Rat.floor_natCast_div_natCast, ← Int.natCast_div]
  -- the midpoint tests in integers, from `m = 2 ^ j * q + r`
  obtain ⟨q, r, hq, hr, hm⟩ : ∃ q r, m / 2 ^ j = q ∧ m % 2 ^ j = r ∧ (m : ℚ) = 2 ^ j * q + r :=
    ⟨_, _, rfl, rfl, by exact_mod_cast (Nat.div_add_mod m (2 ^ j)).symm⟩
  rw [hq, hr, hm]
  have hb : (2 * ((2 : ℚ) ^ j * q + r) < (2 * ((q : ℤ) : ℚ) + 1) * ((2 ^ j : ℕ) : ℚ)) ↔
      2 * r < 2 ^ j := by
    push_cast
    rw [← Nat.cast_lt (α := ℚ)]
    push_cast
    constructor <;> intro h <;> linarith
  have ha : ((2 * ((q : ℤ) : ℚ) + 1) * ((2 ^ j : ℕ) : ℚ) < 2 * ((2 : ℚ) ^ j * q + r)) ↔
      2 ^ j < 2 * r := by
    push_cast
    rw [← Nat.cast_lt (α := ℚ)]
    push_cast
    constructor <;> intro h <;> linarith
  rw [decide_eq_decide.mpr hb, decide_eq_decide.mpr ha]

/-- The binade of a natural number from `2 ^ 53` on, read off its size. -/
theorem natCast_binade {m : ℕ} (h : 2 ^ 53 ≤ m) :
    2 ^ (m.size - 53 + 52) ≤ m ∧ m < 2 ^ (m.size - 53 + 53) := by
  have hs : 53 < m.size := Nat.lt_size.mpr h
  refine ⟨Nat.lt_size.mp (by omega), Nat.size_le.mp (by omega)⟩

/-- **A multiple of `2 ^ j` up to `2 ^ (j + 53)` converts to itself.** -/
theorem round_natCast_of_dvd {m j : ℕ} (h : m ≤ 2 ^ (j + 53)) (hd : 2 ^ j ∣ m) :
    round m = m := by
  rcases Nat.lt_or_ge m (2 ^ 53) with h53 | h53
  · exact round_natCast h53
  obtain ⟨hb1, hb2⟩ := natCast_binade h53
  set i := m.size - 53
  -- the binade's spacing `2 ^ i` divides `m`: `i ≤ j`, or `m` is `2 ^ (j + 53)` itself
  have hdi : 2 ^ i ∣ m := by
    by_cases hij : i ≤ j
    · exact (Nat.pow_dvd_pow 2 hij).trans hd
    · have hi : 2 ^ (j + 53) ≤ 2 ^ (i + 52) := Nat.pow_le_pow_right Nat.two_pos (by omega)
      rw [show m = 2 ^ i * 2 ^ 52 by rw [← pow_add]; omega]
      exact Nat.dvd_mul_right _ _
  have hpos : (0 : ℚ) < m := by exact_mod_cast (Nat.two_pow_pos 53).trans_le h53
  rw [round_of_pos hpos, roundPos_natCast hb1 hb2, Nat.mod_eq_zero_of_dvd hdi, mul_zero,
    decide_eq_true (Nat.two_pow_pos i), roundHalfEven, if_pos rfl]
  exact_mod_cast Nat.div_mul_cancel hdi

/-- **Cutting off the bits below `2 ^ a`** keeps the rounding when they are all clear, or when
the guard bit `j + a - 1` is: the cut value rounds to the same multiple of `2 ^ (j + a)`. -/
theorem round_natCast_div_two_pow {n j a : ℕ} (hj : 0 < j) (h1 : 2 ^ (j + a + 52) ≤ n)
    (h2 : n < 2 ^ (j + a + 53)) (hcut : n % 2 ^ a = 0 ∨ n / 2 ^ (j + a - 1) % 2 = 0) :
    round (n / 2 ^ a : ℕ) * 2 ^ a = round n := by
  have ha := Nat.two_pow_pos a
  have hm1 : 2 ^ (j + 52) ≤ n / 2 ^ a := by
    rw [Nat.le_div_iff_mul_le ha, ← pow_add, show j + 52 + a = j + a + 52 by omega]
    exact h1
  have hm2 : n / 2 ^ a < 2 ^ (j + 53) := by
    rw [Nat.div_lt_iff_lt_mul ha, ← pow_add, show j + 53 + a = j + a + 53 by omega]
    exact h2
  have hq : n / 2 ^ a / 2 ^ j = n / 2 ^ (j + a) := by
    rw [Nat.div_div_eq_div_mul, ← pow_add, add_comm a]
  -- the remainder of `n` is that of the cut value, moved up, over the bits cut off
  have hrem : n % 2 ^ (j + a) = 2 ^ a * (n / 2 ^ a % 2 ^ j) + n % 2 ^ a := by
    rw [add_comm j, pow_add, Nat.mod_mul]
    ring
  have hdec : decide (2 * (n / 2 ^ a % 2 ^ j) < 2 ^ j) =
        decide (2 * (n % 2 ^ (j + a)) < 2 ^ (j + a)) ∧
      decide (2 ^ j < 2 * (n / 2 ^ a % 2 ^ j)) = decide (2 ^ (j + a) < 2 * (n % 2 ^ (j + a))) := by
    rcases hcut with h0 | hg
    · -- nothing cut off: both comparisons are the same one, scaled by `2 ^ a`
      rw [hrem, h0, add_zero, pow_add, show 2 * (2 ^ a * (n / 2 ^ a % 2 ^ j)) =
        2 * (n / 2 ^ a % 2 ^ j) * 2 ^ a by ring]
      exact ⟨decide_eq_decide.mpr (Nat.mul_lt_mul_right ha).symm,
        decide_eq_decide.mpr (Nat.mul_lt_mul_right ha).symm⟩
    · -- the guard bit clear: both remainders are below the midpoint
      have hj1 : 2 ^ j = 2 * 2 ^ (j - 1) := by rw [← pow_succ', Nat.sub_add_cancel hj]
      have hja : 2 ^ (j + a) = 2 * 2 ^ (j + a - 1) := by
        rw [← pow_succ', Nat.sub_add_cancel (by omega)]
      have hn : n % 2 ^ (j + a) < 2 ^ (j + a - 1) := by
        have h := mod_two_pow_succ n (j + a - 1)
        rw [Nat.sub_add_cancel (by omega), hg, mul_zero, add_zero] at h
        rw [h]
        exact Nat.mod_lt _ (Nat.two_pow_pos _)
      have hm : n / 2 ^ a % 2 ^ j < 2 ^ (j - 1) := by
        have h := mod_two_pow_succ (n / 2 ^ a) (j - 1)
        rw [Nat.sub_add_cancel hj, Nat.div_div_eq_div_mul, ← pow_add,
          show a + (j - 1) = j + a - 1 by omega, hg, mul_zero, add_zero] at h
        rw [h]
        exact Nat.mod_lt _ (Nat.two_pow_pos _)
      refine ⟨?_, ?_⟩
      · rw [decide_eq_true (by omega), decide_eq_true (by omega)]
      · rw [decide_eq_false (by omega), decide_eq_false (by omega)]
  have hpos : (0 : ℚ) < n := by exact_mod_cast (Nat.two_pow_pos _).trans_le h1
  have hposm : (0 : ℚ) < (n / 2 ^ a : ℕ) := by exact_mod_cast (Nat.two_pow_pos _).trans_le hm1
  rw [round_of_pos hposm, round_of_pos hpos, roundPos_natCast hm1 hm2, roundPos_natCast h1 h2, hq,
    hdec.1, hdec.2]
  push_cast
  ring

/-- **A set guard bit with a set bit below it rounds up.** -/
theorem round_natCast_of_sticky {n j : ℕ} (hj : 0 < j) (h1 : 2 ^ (j + 52) ≤ n)
    (h2 : n < 2 ^ (j + 53)) (hguard : n / 2 ^ (j - 1) % 2 = 1) (hsticky : n % 2 ^ (j - 1) ≠ 0) :
    round n = ((n / 2 ^ j + 1 : ℕ) : ℚ) * 2 ^ j := by
  have hj1 : 2 ^ j = 2 * 2 ^ (j - 1) := by rw [← pow_succ', Nat.sub_add_cancel hj]
  -- the remainder is above the midpoint `2 ^ (j - 1)`
  have hrem : n % 2 ^ j = n % 2 ^ (j - 1) + 2 ^ (j - 1) := by
    have h := mod_two_pow_succ n (j - 1)
    rwa [Nat.sub_add_cancel hj, hguard, mul_one] at h
  have hpos : (0 : ℚ) < n := by exact_mod_cast (Nat.two_pow_pos _).trans_le h1
  rw [round_of_pos hpos, roundPos_natCast h1 h2, decide_eq_false (by omega),
    decide_eq_true (by omega), roundHalfEven]
  simp only [Bool.false_eq_true, if_false, if_true, Int.cast_add, Int.cast_natCast, Int.cast_one,
    Nat.cast_add, Nat.cast_one, Nat.cast_pow, Nat.cast_ofNat]

theorem round_natCast_nonneg (n : ℕ) : 0 ≤ round (n : ℚ) := by
  rcases Nat.eq_zero_or_pos n with rfl | hn
  · rw [Nat.cast_zero, round_zero]
  · have hpos : (0 : ℚ) < n := by exact_mod_cast hn
    have h := (round_bounds_of_pos hpos).1
    have : (n : ℚ) / 2 ^ 52 ≤ n := div_le_self hpos.le (by norm_num)
    linarith

/-- A rounded natural number rounds to itself. -/
theorem round_round_natCast (n : ℕ) : round (round n) = round n := by
  rcases Nat.lt_or_ge n (2 ^ 53) with h | h
  · rw [round_natCast h, round_natCast h]
  obtain ⟨hb1, hb2⟩ := natCast_binade h
  set j := n.size - 53
  have hq : n / 2 ^ j < 2 ^ 53 := by
    rw [Nat.div_lt_iff_lt_mul (Nat.two_pow_pos j), ← pow_add, add_comm]
    exact hb2
  have hpos : (0 : ℚ) < n := by exact_mod_cast (Nat.two_pow_pos _).trans_le h
  rw [round_of_pos hpos, roundPos_natCast hb1 hb2]
  -- the neighbour picked is `q` or `q + 1`, at most `2 ^ 53`, times `2 ^ j`
  rcases roundHalfEven_mem ((n / 2 ^ j : ℕ) : ℤ) (decide (2 * (n % 2 ^ j) < 2 ^ j))
    (decide (2 ^ j < 2 * (n % 2 ^ j))) with h | h <;> rw [h]
  · rw [Int.cast_natCast, ← Nat.cast_mul]
    refine round_natCast_of_dvd (j := j) ?_ (Nat.dvd_mul_left _ _)
    rw [add_comm j, pow_add]
    exact Nat.mul_le_mul_right _ hq.le
  · rw [Int.cast_add, Int.cast_natCast, Int.cast_one, ← Nat.cast_one (R := ℚ), ← Nat.cast_add,
      ← Nat.cast_mul]
    refine round_natCast_of_dvd (j := j) ?_ (Nat.dvd_mul_left _ _)
    rw [add_comm j, pow_add]
    exact Nat.mul_le_mul_right _ hq

theorem roundHalfEven_true (q : ℤ) (above : Bool) : roundHalfEven q true above = q := by
  simp [roundHalfEven]

/-- An odd quotient not below the midpoint goes up, on a tie too. -/
theorem roundHalfEven_false_of_odd {q : ℤ} (hq : q % 2 = 1) (above : Bool) :
    roundHalfEven q false above = q + 1 := by
  cases above
  · simp only [roundHalfEven, Bool.false_eq_true, if_false]
    rw [if_neg (by omega)]
  · rfl

/-- **The overflow threshold**: `round` reaches `2 ^ 1024`, past the largest double
`2 ^ 1024 - 2 ^ 971`, exactly from their midpoint `2 ^ 1024 - 2 ^ 970` on, where the tie goes to
the even `2 ^ 1024`. -/
theorem two_pow_le_round_natCast_iff (n : ℕ) :
    (2 : ℚ) ^ 1024 ≤ round n ↔ 2 ^ 1024 - 2 ^ 970 ≤ n := by
  rcases Nat.lt_or_ge n (2 ^ (971 + 52)) with hn | hn
  · -- below `2 ^ 1023` rounding at most doubles
    have hlt : round (n : ℚ) < 2 ^ 1024 := by
      rcases Nat.eq_zero_or_pos n with rfl | hpos
      · rw [Nat.cast_zero, round_zero]
        positivity
      · have h' : (n : ℚ) < 2 ^ (971 + 52) := by exact_mod_cast hn
        calc round (n : ℚ) ≤ 2 * n := round_le_two_mul (by exact_mod_cast hpos)
          _ < 2 * 2 ^ (971 + 52) := by gcongr
          _ = 2 ^ 1024 := (pow_succ' 2 (971 + 52)).symm
    exact ⟨fun h => absurd h (not_le.mpr hlt), fun h => by omega⟩
  have hpos : (0 : ℚ) < n := by exact_mod_cast (Nat.two_pow_pos _).trans_le hn
  rcases Nat.lt_or_ge n (2 ^ (971 + 53)) with hn' | hn'
  · -- the top binade: the neighbours are multiples of `2 ^ 971`, the upper one of
    -- `2 ^ 53 - 1` being `2 ^ 1024`
    have hr := Nat.div_add_mod n (2 ^ 971)
    have hrlt := Nat.mod_lt n (Nat.two_pow_pos 971)
    rw [round_of_pos hpos, roundPos_natCast hn hn']
    have hcast : ∀ R : ℤ, (2 : ℚ) ^ 1024 ≤ (R : ℚ) * ((2 ^ 971 : ℕ) : ℚ) ↔ 2 ^ 1024 ≤ R * 2 ^ 971 := by
      intro R
      rw [← Int.cast_le (R := ℚ), Int.cast_mul, Int.cast_pow, Int.cast_pow, Int.cast_ofNat,
        Nat.cast_pow, Nat.cast_ofNat]
    rw [hcast]
    by_cases hge : 2 ^ 1024 - 2 ^ 970 ≤ n
    · have hq : ((n / 2 ^ 971 : ℕ) : ℤ) = 2 ^ 53 - 1 := by omega
      rw [decide_eq_false (by omega), hq, roundHalfEven_false_of_odd (by decide)]
      exact ⟨fun _ => hge, fun _ => by omega⟩
    · refine ⟨fun h => absurd h ?_, fun h => absurd h hge⟩
      rcases Nat.lt_or_ge (n / 2 ^ 971) (2 ^ 53 - 1) with hq | hq
      · -- a lower quotient rounds at most to `2 ^ 53 - 1`
        rcases roundHalfEven_mem ((n / 2 ^ 971 : ℕ) : ℤ) (decide (2 * (n % 2 ^ 971) < 2 ^ 971))
          (decide (2 ^ 971 < 2 * (n % 2 ^ 971))) with h | h <;> rw [h] <;> omega
      · -- the top quotient with a remainder below half stays
        rw [decide_eq_true (by omega), roundHalfEven_true]
        omega
  · -- past `2 ^ 1024` the lower neighbour is already at least `2 ^ 1024`
    obtain ⟨hb1, hb2⟩ := natCast_binade ((Nat.pow_le_pow_right Nat.two_pos (by norm_num)).trans hn')
    set j := n.size - 53
    have hj : 1024 ≤ j + 52 := by
      have h := (Nat.pow_lt_pow_iff_right (by norm_num)).mp (hn'.trans_lt hb2)
      omega
    have hq : 2 ^ 52 ≤ n / 2 ^ j := by
      rw [Nat.le_div_iff_mul_le (Nat.two_pow_pos j), ← pow_add, add_comm 52]
      exact hb1
    rw [round_of_pos hpos, roundPos_natCast hb1 hb2]
    refine ⟨fun _ => by omega, fun _ => ?_⟩
    have hR : ((n / 2 ^ j : ℕ) : ℚ) ≤ (roundHalfEven ((n / 2 ^ j : ℕ) : ℤ) (decide (2 * (n % 2 ^ j) < 2 ^ j))
        (decide (2 ^ j < 2 * (n % 2 ^ j))) : ℚ) := by
      rcases roundHalfEven_mem ((n / 2 ^ j : ℕ) : ℤ) (decide (2 * (n % 2 ^ j) < 2 ^ j))
        (decide (2 ^ j < 2 * (n % 2 ^ j))) with h | h <;> rw [h] <;>
        simp only [Int.cast_natCast, Int.cast_add, Int.cast_one] <;> linarith
    have hq' : (2 : ℚ) ^ 52 ≤ ((n / 2 ^ j : ℕ) : ℚ) := by exact_mod_cast hq
    calc (2 : ℚ) ^ 1024 ≤ 2 ^ (52 + j) := pow_le_pow_right₀ one_le_two (by omega)
      _ = 2 ^ 52 * ((2 ^ j : ℕ) : ℚ) := by push_cast; ring
      _ ≤ _ := by gcongr; exact hq'.trans hR

end Binary64
