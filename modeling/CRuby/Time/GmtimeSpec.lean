import CRuby.Time.Gmtime
import CRuby.Lib.Gregorian
import Mathlib.Tactic.LinearCombination
import Mathlib.Tactic.IntervalCases

/-!
# `gmtimew_noleapsecond` and `timegmw_noleapsecond` are inverse

The functions of `CRuby.Time.Gmtime` against the proleptic Gregorian calendar of
`Gregorian`:

* C's `DIV`/`MOD`, `wdivmod` and `divmodv` round down (`cDiv_eq`, `wdivmod_eq`, `divmodv_eq`),
  and `leap_year_p` is the 4/100/400 rule (`leapYearP_iff`);
* `timegmwNoleapsecond_eq`: a `vtm` with a month in 1..12 is
  `TIME_SCALE * (86400 * days + seconds of the day) + subsecx`, its days counted from
  1970-01-01 by `civilDays`; `timegmNoleapsecond_eq` is the same count in seconds;
* the splits of the 400-year cycle find the year of a day and its day in that year
  (`splitCycle_spec`): the century and four-year blocks are counted as if every fourth year of
  a century were a leap year (`quadDays`), with the one common year of each century taken apart
  (`centuryDays`), and 2000, the one century year of the cycle that is a leap year, before them;
* `ydayLoop_spec`: the month loop finds the month and its day;
* `gmtimewNoleapsecond_spec`: the result of `gmtimew_noleapsecond` is a valid date and time whose
  `timegmw_noleapsecond` is the time it was made from, and `gmtimew_timegmw` the converse, which
  follows from it because a valid date and time is determined by its count.
-/
namespace CRuby.Time

open Gregorian

/-! ## C arithmetic -/

/-- `DIV` rounds down. -/
theorem cDiv_eq (n : ℤ) {d : ℤ} (hd : 0 < d) : cDiv n d = n / d := by
  unfold cDiv
  split_ifs with hn
  · rw [Int.tdiv_eq_ediv_of_nonneg (by omega)]
    -- `n = (-(a / d) - 1) * d + (d - a % d - 1)` with `a = -(n + 1)`
    have hq := Int.mul_ediv_add_emod (-(n + 1)) d
    have hr0 := Int.emod_nonneg (-(n + 1)) (Int.ne_of_gt hd)
    have hr1 := Int.emod_lt_of_pos (-(n + 1)) hd
    refine ((Int.ediv_emod_unique (r := d - -(n + 1) % d - 1) hd).mpr ⟨?_, by omega, by omega⟩).1.symm
    linear_combination (-1 : ℤ) * hq
  · rw [Int.tdiv_eq_ediv_of_nonneg (by omega)]

/-- `MOD` is the remainder of `DIV`. -/
theorem cMod_eq (n : ℤ) {d : ℤ} (hd : 0 < d) : cMod n d = n % d := by
  unfold cMod
  split_ifs with hn
  · rw [Int.tmod_eq_emod_of_nonneg (by omega)]
    have hq := Int.mul_ediv_add_emod (-(n + 1)) d
    have hr0 := Int.emod_nonneg (-(n + 1)) (Int.ne_of_gt hd)
    have hr1 := Int.emod_lt_of_pos (-(n + 1)) hd
    refine ((Int.ediv_emod_unique (q := -(-(n + 1) / d) - 1) hd).mpr ⟨?_, by omega, by omega⟩).2.symm
    linear_combination (-1 : ℤ) * hq
  · rw [Int.tmod_eq_emod_of_nonneg (by omega)]

/-- `wdivmod` by a positive divisor rounds down. -/
theorem wdivmod_eq (n : ℤ) {d : ℤ} (hd : 0 < d) : wdivmod n d = (n / d, n % d) := by
  unfold wdivmod
  have hsplit := Int.tmod_add_tdiv_mul n d
  have hlo := Int.lt_tmod_of_pos n hd
  have hhi := Int.tmod_lt_of_pos n hd
  by_cases h1 : d = 1
  · subst h1
    simp
  rw [if_neg h1, if_neg (by omega)]
  by_cases h0 : n = 0
  · subst h0
    simp
  rw [if_neg h0]
  dsimp only
  simp only [if_pos hd]
  split_ifs with hr
  · -- a negative remainder moves to the next quotient down
    obtain ⟨hq, hr⟩ := (Int.ediv_emod_unique (a := n) (r := n.tmod d + d) (q := n.tdiv d - 1) hd).mpr
      ⟨by linear_combination hsplit, by omega, by omega⟩
    rw [hq, hr]
  · obtain ⟨hq, hr⟩ := (Int.ediv_emod_unique (a := n) (r := n.tmod d) (q := n.tdiv d) hd).mpr
      ⟨by linear_combination hsplit, by omega, by omega⟩
    rw [hq, hr]

theorem divmodv_eq (n : ℤ) {d : ℤ} (hd : 0 < d) : divmodv n d = (n / d, n % d) := by
  rw [divmodv, Int.fdiv_eq_ediv_of_nonneg n (Int.le_of_lt hd),
    Int.fmod_eq_emod_of_nonneg n (Int.le_of_lt hd)]

theorem modv_eq (x : ℤ) {y : ℤ} (hy : 0 < y) : modv x y = x % y :=
  Int.fmod_eq_emod_of_nonneg x (Int.le_of_lt hy)

/-- `leap_year_p` is the 4/100/400 rule. -/
theorem leapYearP_iff (y : ℤ) : leapYearP y = true ↔ IsLeap y := by
  simp only [leapYearP, IsLeap, Bool.or_eq_true, Bool.and_eq_true, beq_iff_eq, bne_iff_ne, ne_eq,
    ← Int.dvd_iff_tmod_eq_zero, ← Int.dvd_iff_emod_eq_zero]

theorem bitField_of_lt {w : ℕ} {v : ℤ} (h0 : 0 ≤ v) (h1 : v < 2 ^ w) : bitField w v = v.toNat := by
  rw [bitField, Int.emod_eq_of_lt h0 h1]

/-! ## The 400-year cycle -/

/-- Days before year `k` of a run of years whose years `2, 6, 10, ...` are leap years. -/
def quadDays (k : ℤ) : ℤ := 365 * k + (k + 1) / 4

/-- The length of year `k` of such a run. -/
def quadLen (k : ℤ) : ℤ := if k % 4 = 2 then 366 else 365

/-- Days before year `k` of a century run from a year `≡ 2 (mod 4)` whose year 30 is a
century year that is not a leap year. -/
def centuryDays (k : ℤ) : ℤ := quadDays k - if 31 ≤ k then 1 else 0

/-- The length of year `k` of such a century run. -/
def centuryLen (k : ℤ) : ℤ := if k % 4 = 2 ∧ k ≠ 30 then 366 else 365

theorem splitYears_eq {n : ℤ} (h : 0 ≤ n) (y : ℤ) : splitYears n y = (y + n / 365, n % 365) := by
  rw [splitYears, Int.tdiv_eq_ediv_of_nonneg h, Int.tmod_eq_emod_of_nonneg h]

/-- **The four-year blocks.** A day of 25 blocks of four years falls in year `k` of them, at its
day `d`. -/
theorem splitQuad_spec {n : ℤ} (h0 : 0 ≤ n) (h1 : n < 25 * (365 * 4 + 1)) (y : ℤ) :
    let r := splitQuad n y
    0 ≤ r.1 - y ∧ r.1 - y < 100 ∧ quadDays (r.1 - y) + r.2 = n ∧ 0 ≤ r.2 ∧
      r.2 < quadLen (r.1 - y) := by
  have hm0 := Int.emod_nonneg n (show (1461 : ℤ) ≠ 0 by decide)
  unfold splitQuad quadDays quadLen
  rw [Int.tdiv_eq_ediv_of_nonneg h0, Int.tmod_eq_emod_of_nonneg h0]
  simp only [Int.reduceMul, Int.reduceAdd, Int.reduceSub]
  by_cases ha : 789 ≤ n % 1461
  · rw [if_pos ha]
    by_cases hb : n % 1461 < 1096
    · -- the leap day and the rest of the third year
      rw [if_pos hb]
      split_ifs <;> omega
    · rw [if_neg hb, splitYears_eq (by omega)]
      split_ifs <;> omega
  · rw [if_neg ha, splitYears_eq hm0]
    split_ifs <;> omega

/-- **The century blocks.** A day of four virtual centuries of 36524 days, each with its
common year 30, falls in century `n / 36524`, year `k` of it, at its day `d`. -/
theorem splitCentury_spec {n : ℤ} (h0 : 0 ≤ n) (y : ℤ) :
    let r := splitCentury n y
    ∃ k, r.1 = y + n / 36524 * 100 + k ∧ 0 ≤ k ∧ k < 100 ∧
      centuryDays k + r.2 = n % 36524 ∧ 0 ≤ r.2 ∧ r.2 < centuryLen k := by
  have hm0 := Int.emod_nonneg n (show (36524 : ℤ) ≠ 0 by decide)
  have hm1 := Int.emod_lt_of_pos n (show (0 : ℤ) < 36524 by decide)
  unfold splitCentury
  rw [Int.tdiv_eq_ediv_of_nonneg h0, Int.tmod_eq_emod_of_nonneg h0]
  simp only [Int.reduceMul, Int.reduceAdd, Int.reduceSub]
  by_cases ha : 11016 ≤ n % 36524
  · rw [if_pos ha]
    by_cases hb : n % 36524 < 11322
    · -- year 30 from March on
      rw [if_pos hb]
      refine ⟨30, by omega, by omega, by omega, ?_, by omega, ?_⟩ <;>
        simp only [centuryDays, centuryLen, quadDays] <;> omega
    · -- after year 30, which `splitQuad` counts as a leap year: one day more
      rw [if_neg hb]
      have hq := splitQuad_spec (n := n % 36524 + 1) (by omega) (by omega) (y + n / 36524 * 100)
      generalize splitQuad (n % 36524 + 1) (y + n / 36524 * 100) = r at hq ⊢
      obtain ⟨hk0, hk1, hd, hd0, hd1⟩ := hq
      rw [quadDays] at hd
      rw [quadLen] at hd1
      refine ⟨r.1 - (y + n / 36524 * 100), by omega, hk0, hk1, ?_, hd0, ?_⟩
      · rw [centuryDays, quadDays]
        split_ifs <;> omega
      · rw [centuryLen]
        split_ifs at hd1 ⊢ <;> omega
  · rw [if_neg ha]
    have hq := splitQuad_spec (n := n % 36524) hm0 (by omega) (y + n / 36524 * 100)
    generalize splitQuad (n % 36524) (y + n / 36524 * 100) = r at hq ⊢
    obtain ⟨hk0, hk1, hd, hd0, hd1⟩ := hq
    rw [quadDays] at hd
    rw [quadLen] at hd1
    refine ⟨r.1 - (y + n / 36524 * 100), by omega, hk0, hk1, ?_, hd0, ?_⟩
    · rw [centuryDays, quadDays]
      split_ifs <;> omega
    · rw [centuryLen]
      split_ifs at hd1 ⊢ <;> omega

/-! ## The cycle from 1970 -/

/-- The years from 1970 against the virtual centuries of `splitCentury`: they count the leap day
of 2000 (`k = 30` of century 0) only after it. -/
theorem yearStart_century {c k : ℤ} (hc0 : 0 ≤ c) (hc1 : c ≤ 3) (hk0 : 0 ≤ k) (hk1 : k < 100) :
    yearStart (1970 + 100 * c + k) =
      yearStart 1970 + 36524 * c + centuryDays k + if c = 0 ∧ k ≤ 30 then 0 else 1 := by
  unfold yearStart centuryDays quadDays
  interval_cases c <;> split_ifs <;> omega

theorem centuryLen_le_daysInYear {c k : ℤ} (hk0 : 0 ≤ k) (hk1 : k < 100) :
    centuryLen k ≤ daysInYear (1970 + 100 * c + k) := by
  unfold centuryLen daysInYear IsLeap
  split_ifs <;> omega

/-- **The 400-year cycle from 1970-01-01.** Day `n` of the cycle falls in year `y`, at its day
`d` from 0. -/
theorem splitCycle_spec {n : ℤ} (h0 : 0 ≤ n) (h1 : n < 146097) :
    yearStart (splitCycle n).1 + (splitCycle n).2 = yearStart 1970 + n ∧
      0 ≤ (splitCycle n).2 ∧ (splitCycle n).2 < daysInYear (splitCycle n).1 := by
  unfold splitCycle
  simp only [Int.reduceMul, Int.reduceAdd, Int.reduceSub]
  by_cases ha : 11016 ≤ n
  · rw [if_pos ha]
    by_cases hb : n < 11323
    · -- 2000-02-29 to 2000-12-31
      rw [if_pos hb]
      have h2000 : yearStart 2000 = yearStart 1970 + 10957 := by decide
      have hleap : daysInYear 2000 = 366 := by decide
      simp only [h2000, hleap]
      omega
    · -- from 2001-01-01, one day less
      rw [if_neg hb]
      obtain ⟨k, hy, hk0, hk1, hd, hd0, hd1⟩ := splitCentury_spec (n := n - 1) (by omega) 1970
      generalize splitCentury (n - 1) 1970 = r at *
      rw [hy, show 1970 + (n - 1) / 36524 * 100 + k = 1970 + 100 * ((n - 1) / 36524) + k by omega,
        yearStart_century (by omega) (by omega) hk0 hk1]
      have hlen := centuryLen_le_daysInYear (c := (n - 1) / 36524) hk0 hk1
      refine ⟨?_, hd0, by omega⟩
      -- in century 0 the day is after 2000, so `k` is past 30
      have hk : ¬((n - 1) / 36524 = 0 ∧ k ≤ 30) := by
        rintro ⟨hc0, hk30⟩
        unfold centuryDays quadDays centuryLen at *
        split_ifs at * <;> omega
      rw [if_neg hk]
      omega
  · -- before 2000-02-29
    rw [if_neg ha]
    obtain ⟨k, hy, hk0, hk1, hd, hd0, hd1⟩ := splitCentury_spec (n := n) h0 1970
    generalize splitCentury n 1970 = r at *
    have hn : n / 36524 = 0 := by omega
    have hnm : n % 36524 = n := by omega
    rw [hy, hn, show 1970 + 0 * 100 + k = 1970 + 100 * 0 + k by omega,
      yearStart_century (le_refl 0) (by omega) hk0 hk1]
    have hlen := centuryLen_le_daysInYear (c := 0) hk0 hk1
    refine ⟨?_, hd0, by omega⟩
    have hk : k ≤ 30 := by
      unfold centuryDays quadDays at hd
      split_ifs at hd <;> omega
    rw [if_pos ⟨rfl, hk⟩]
    omega

/-! ## The month loop -/

theorem length_ydayOffset (y : ℤ) :
    (if leapYearP y then leapYearYdayOffset else commonYearYdayOffset).length = 12 := by
  split <;> rfl

/-- Entry `i` of the table of a year is the day before the first of month `i + 1`. -/
theorem getElem_ydayOffset (y : ℤ) {i : ℕ} (hi : i < 12) :
    (if leapYearP y then leapYearYdayOffset else commonYearYdayOffset)[i]? =
      some (daysBeforeMonth y (i + 1) - 1) := by
  by_cases hl : IsLeap y
  · rw [if_pos ((leapYearP_iff y).mpr hl)]
    interval_cases i <;> simp [leapYearYdayOffset, daysBeforeMonth, daysInMonth, hl]
  · rw [if_neg (mt (leapYearP_iff y).mp hl)]
    interval_cases i <;> simp [commonYearYdayOffset, daysBeforeMonth, daysInMonth, hl]

/-- **The month loop** from entry `i` of the table, on a day `n` of month `m`: every entry before
`m` is below `n` and moves `(mon, mday)` on, and entry `m` stops the loop. -/
theorem ydayLoop_drop {y n : ℤ} {m : ℕ} (hm1 : 1 ≤ m) (hm12 : m ≤ 12)
    (hlo : daysBeforeMonth y m ≤ n) (hhi : n < daysBeforeMonth y (m + 1)) (k : ℕ) :
    ∀ i acc, i + k = m →
      (1 ≤ i → acc = (bitField 4 i, bitField 5 (n - (daysBeforeMonth y i - 1)))) →
      ydayLoop n ((if leapYearP y then leapYearYdayOffset else commonYearYdayOffset).drop i) i acc =
        (bitField 4 m, bitField 5 (n - (daysBeforeMonth y m - 1))) := by
  -- induction on the entries left before month `m`
  induction k with
  | zero =>
    intro i acc hi hacc
    obtain rfl : i = m := by omega
    rw [← hacc hm1]
    rcases Nat.lt_or_eq_of_le hm12 with hlt | rfl
    · -- entry `m` is the day before month `m + 1`, not below `n`
      rw [List.drop_eq_getElem_cons (by rw [length_ydayOffset]; exact hlt)]
      have he := getElem_ydayOffset y hlt
      rw [List.getElem?_eq_getElem (by rw [length_ydayOffset]; exact hlt), Option.some.injEq] at he
      rw [ydayLoop, he, if_neg (by omega)]
    · rw [List.drop_eq_nil_of_le (by rw [length_ydayOffset]), ydayLoop]
  | succ k ih =>
    intro i acc hi hacc
    have hi12 : i < 12 := by omega
    rw [List.drop_eq_getElem_cons (by rw [length_ydayOffset]; exact hi12)]
    have he := getElem_ydayOffset y hi12
    rw [List.getElem?_eq_getElem (by rw [length_ydayOffset]; exact hi12), Option.some.injEq] at he
    have hmono := daysBeforeMonth_mono y (show i + 1 ≤ m by omega)
    rw [ydayLoop, he, if_pos (by omega)]
    exact ih (i + 1) _ (by omega) fun _ => by push_cast; rfl

/-- **The month loop finds the month and its day.** -/
theorem ydayLoop_spec {y n : ℤ} (h0 : 0 ≤ n) (h1 : n < daysInYear y) (acc : ℕ × ℕ) :
    let r := ydayLoop n (if leapYearP y then leapYearYdayOffset else commonYearYdayOffset) 0 acc
    Valid y r.1 r.2 ∧ daysBeforeMonth y r.1 + (r.2 - 1) = n := by
  obtain ⟨m, hm1, hm12, hlo, hhi⟩ := exists_month h0 h1
  have hloop := ydayLoop_drop hm1 hm12 hlo hhi m 0 acc (by omega) (by omega)
  rw [List.drop_zero] at hloop
  have hsucc := daysBeforeMonth_succ y hm1
  have hle := daysInMonth_le y m
  intro r
  rw [show r = _ from hloop, bitField_of_lt (by omega) (by omega),
    bitField_of_lt (by omega) (by omega), Int.toNat_natCast]
  dsimp only
  refine ⟨⟨hm1, hm12, by omega, by omega⟩, by omega⟩

/-! ## `timegmw_noleapsecond` -/

/-- `table[mon - 1]` for a month in 1..12. -/
theorem tableAt_ydayOffset (y : ℤ) {m : ℕ} (h1 : 1 ≤ m) (h12 : m ≤ 12) :
    tableAt (if leapYearP y then leapYearYdayOffset else commonYearYdayOffset) ((m : ℤ) - 1) =
      daysBeforeMonth y m - 1 := by
  have he := getElem_ydayOffset y (i := m - 1) (by omega)
  rw [show m - 1 + 1 = m by omega] at he
  rw [tableAt, if_pos (by omega), show ((m : ℤ) - 1).toNat = m - 1 by omega, List.getD_eq_getElem?_getD,
    he, Option.getD_some]

theorem leapYearP_congr {x y : ℤ} (h : IsLeap x ↔ IsLeap y) : leapYearP x = leapYearP y := by
  rw [Bool.eq_iff_iff, leapYearP_iff, leapYearP_iff]
  exact h

/-- `calc_tm_yday` on the year of a `vtm` taken modulo 400: the day of the year, from 1. -/
theorem calcTmYday_eq (y : ℤ) {m : ℕ} (h1 : 1 ≤ m) (h12 : m ≤ 12) (d : ℤ) :
    calcTmYday ((y - 1900) % 400) ((m : ℤ) - 1) d = d + daysBeforeMonth y m - 1 := by
  have hleap : leapYearP ((y - 1900) % 400 % 400 + 1900) = leapYearP y :=
    leapYearP_congr (by unfold IsLeap; omega)
  have ht := tableAt_ydayOffset y h1 h12
  unfold calcTmYday
  rw [cMod_eq _ (by decide)]
  dsimp only
  rw [hleap]
  split_ifs at ht ⊢ <;> omega

/-- **`timegmw_noleapsecond`** counts `TIME_SCALE` units from 1970-01-01 00:00:00 by the
calendar, for a month in 1..12. -/
theorem timegmwNoleapsecond_eq (vtm : Vtm) (h1 : 1 ≤ vtm.mon) (h12 : vtm.mon ≤ 12) :
    timegmwNoleapsecond vtm =
      timeScale * (86400 * (civilDays vtm.year vtm.mon vtm.mday - civilDays 1970 1 1) +
        vtm.sec + 60 * vtm.min + 3600 * vtm.hour) + vtm.subsecx := by
  have hy := calcTmYday_eq vtm.year h1 h12 vtm.mday
  unfold timegmwNoleapsecond
  simp only [divmodv_eq _ (show (0 : ℤ) < 400 by decide)]
  rw [hy, cDiv_eq _ (by decide), cDiv_eq _ (by decide),
    Int.tdiv_eq_ediv_of_nonneg (by omega)]
  unfold civilDays yearStart timeScale
  simp only [daysBeforeMonth]
  omega

/-! ## `gmtimew_noleapsecond` -/

/-- `gmtimew_noleapsecond` with C's divisions of non-negative values and `wdivmod` as floor
divisions: `D` is the day from 1970-01-01 and `v` the second of the day. -/
theorem gmtimewNoleapsecond_eq (t : ℤ) (vtm : Vtm) :
    gmtimewNoleapsecond t vtm =
      let D := t / timeScale / 86400
      let v := t / timeScale % 86400
      let yn := splitCycle (D % 146097)
      let monMday := ydayLoop yn.2 (if leapYearP yn.1 then leapYearYdayOffset
        else commonYearYdayOffset) 0 (vtm.mon, vtm.mday)
      { vtm with
        isdst := 0, subsecx := t % timeScale, wday := bitField 3 ((D % 7 + 4) % 7),
        sec := bitField 6 (v % 60), min := bitField 6 (v / 60 % 60), hour := bitField 5 (v / 60 / 60),
        yday := bitField 9 (yn.2 + 1), year := D / 146097 * 400 + yn.1,
        mon := monMday.1, mday := monMday.2, utcOffset := 0, zone := "UTC" } := by
  have hts : (0 : ℤ) < timeScale := by decide
  have hv0 := Int.emod_nonneg (t / timeScale) (show (86400 : ℤ) ≠ 0 by decide)
  have hw0 := Int.emod_nonneg (t / timeScale / 86400) (show (7 : ℤ) ≠ 0 by decide)
  unfold gmtimewNoleapsecond splitSecond
  dsimp only
  rw [wdivmod_eq _ hts]
  dsimp only
  rw [wdivmod_eq _ (by decide), modv_eq _ (by decide), divmodv_eq _ (by decide)]
  dsimp only
  rw [Int.tmod_eq_emod_of_nonneg hv0, Int.tdiv_eq_ediv_of_nonneg hv0,
    Int.tmod_eq_emod_of_nonneg (Int.ediv_nonneg hv0 (by decide)),
    Int.tdiv_eq_ediv_of_nonneg (Int.ediv_nonneg hv0 (by decide)),
    Int.tmod_eq_emod_of_nonneg (by omega)]
  rfl

/-- **`gmtimew_noleapsecond` makes a valid date and time** whose day of the year and day of the
week are those of the calendar, and whose `timegmw_noleapsecond` is the time it was made from. -/
theorem gmtimewNoleapsecond_spec (t : ℤ) (vtm : Vtm) :
    let r := gmtimewNoleapsecond t vtm
    Valid r.year r.mon r.mday ∧ r.hour < 24 ∧ r.min < 60 ∧ r.sec < 60 ∧
      0 ≤ r.subsecx ∧ r.subsecx < timeScale ∧
      (r.yday : ℤ) = 1 + (civilDays r.year r.mon r.mday - civilDays r.year 1 1) ∧
      (r.wday : ℤ) = weekday (civilDays r.year r.mon r.mday) ∧
      timegmwNoleapsecond r = t := by
  have hts : timeScale = 1000000000 := rfl
  rw [gmtimewNoleapsecond_eq]
  dsimp only
  -- `t` is `D` days, `v` seconds and `t % TIME_SCALE` units from the epoch
  have hsub0 := Int.emod_nonneg t (show timeScale ≠ 0 by decide)
  have hsub1 := Int.emod_lt_of_pos t (show 0 < timeScale by decide)
  have hv0 := Int.emod_nonneg (t / timeScale) (show (86400 : ℤ) ≠ 0 by decide)
  have hv1 := Int.emod_lt_of_pos (t / timeScale) (show (0 : ℤ) < 86400 by decide)
  have htD : t = timeScale * (86400 * (t / timeScale / 86400) + t / timeScale % 86400) +
      t % timeScale := by rw [hts] at *; omega
  generalize t / timeScale / 86400 = D at htD ⊢
  generalize t / timeScale % 86400 = v at htD hv0 hv1 ⊢
  -- the year `yn.1` of the cycle and its day `yn.2`, then the month and its day
  have hc0 := Int.emod_nonneg D (show (146097 : ℤ) ≠ 0 by decide)
  have hc1 := Int.emod_lt_of_pos D (show (0 : ℤ) < 146097 by decide)
  obtain ⟨hcyc, hd0, hd1⟩ := splitCycle_spec hc0 hc1
  generalize splitCycle (D % 146097) = yn at hcyc hd0 hd1 ⊢
  obtain ⟨hval, hday⟩ := ydayLoop_spec hd0 hd1 (vtm.mon, vtm.mday)
  generalize ydayLoop yn.2 _ 0 (vtm.mon, vtm.mday) = md at hval hday ⊢
  -- the year of the result is `yn.1` moved by whole cycles
  have hyear : D / 146097 * 400 + yn.1 = yn.1 + 400 * (D / 146097) := by omega
  have hleap : IsLeap (D / 146097 * 400 + yn.1) ↔ IsLeap yn.1 := by
    rw [hyear]
    exact isLeap_add_mul_400 _ _
  have hstart : yearStart (D / 146097 * 400 + yn.1) = yearStart yn.1 + 146097 * (D / 146097) := by
    rw [hyear]
    exact yearStart_add_mul_400 _ _
  have hval' := hval.congr hleap.symm
  have hciv : civilDays (D / 146097 * 400 + yn.1) md.1 md.2 = civilDays 1970 1 1 + D := by
    unfold civilDays
    rw [hstart, daysBeforeMonth_congr hleap]
    simp only [daysBeforeMonth]
    omega
  refine ⟨hval', ?_, ?_, ?_, hsub0, hsub1, ?_, ?_, ?_⟩
  · rw [bitField_of_lt (by omega) (by omega)]
    omega
  · rw [bitField_of_lt (by omega) (by omega)]
    omega
  · rw [bitField_of_lt (by omega) (by omega)]
    omega
  · -- the day of the year
    have hd := daysInYear_le yn.1
    rw [bitField_of_lt (by omega) (by omega)]
    unfold civilDays at hciv ⊢
    rw [daysBeforeMonth_congr hleap] at hciv ⊢
    simp only [daysBeforeMonth] at hciv ⊢
    omega
  · -- the day of the week: 1970-01-01 was a Thursday
    rw [bitField_of_lt (by omega) (by omega), hciv, weekday]
    have h1970 : civilDays 1970 1 1 = 719528 := by decide
    rw [h1970]
    omega
  · rw [timegmwNoleapsecond_eq _ hval'.one_le_mon hval'.mon_le]
    dsimp only
    rw [hciv, bitField_of_lt (by omega) (by omega), bitField_of_lt (by omega) (by omega),
      bitField_of_lt (by omega) (by omega)]
    rw [hts] at htD ⊢
    omega

/-- **`gmtimew_noleapsecond` inverts `timegmw_noleapsecond`** on a valid date and time: the two
sums of units, seconds and days are equal with every part in range, so the parts are, and two
valid dates on one day are one date. -/
theorem gmtimew_timegmw (vtm vtm' : Vtm) (hv : Valid vtm.year vtm.mon vtm.mday)
    (hh : vtm.hour < 24) (hm : vtm.min < 60) (hs : vtm.sec < 60) (hs0 : 0 ≤ vtm.subsecx)
    (hs1 : vtm.subsecx < timeScale) :
    let r := gmtimewNoleapsecond (timegmwNoleapsecond vtm) vtm'
    r.year = vtm.year ∧ r.mon = vtm.mon ∧ r.mday = vtm.mday ∧ r.hour = vtm.hour ∧
      r.min = vtm.min ∧ r.sec = vtm.sec ∧ r.subsecx = vtm.subsecx := by
  obtain ⟨hv', hh', hm', hs', hsub0, hsub1, -, -, hinv⟩ :=
    gmtimewNoleapsecond_spec (timegmwNoleapsecond vtm) vtm'
  generalize gmtimewNoleapsecond (timegmwNoleapsecond vtm) vtm' = r at *
  rw [timegmwNoleapsecond_eq _ hv'.one_le_mon hv'.mon_le,
    timegmwNoleapsecond_eq _ hv.one_le_mon hv.mon_le] at hinv
  have hts : timeScale = 1000000000 := rfl
  rw [hts] at hinv hs1 hsub1
  have hsub : r.subsecx = vtm.subsecx := by omega
  have hdays : civilDays r.year r.mon r.mday = civilDays vtm.year vtm.mon vtm.mday := by omega
  obtain ⟨h1, h2, h3⟩ := hv'.eq_of_civilDays_eq hv hdays
  exact ⟨h1, h2, h3, by omega, by omega, by omega, hsub⟩

/-! ## `timegm_noleapsecond` -/

/-- **`timegm_noleapsecond`** counts seconds from 1970-01-01 00:00:00 by the calendar, for a
`tm_mon` in 0..11. -/
theorem timegmNoleapsecond_eq (tm : Tm) (h0 : 0 ≤ tm.tmMon) (h11 : tm.tmMon < 12) :
    timegmNoleapsecond tm = tm.tmSec + 60 * tm.tmMin + 3600 * tm.tmHour +
      86400 * (yearStart (tm.tmYear + 1900) + daysBeforeMonth (tm.tmYear + 1900) (tm.tmMon.toNat + 1) +
        (tm.tmMday - 1) - civilDays 1970 1 1) := by
  have ht := tableAt_ydayOffset (tm.tmYear + 1900) (m := tm.tmMon.toNat + 1) (by omega) (by omega)
  rw [show ((tm.tmMon.toNat + 1 : ℕ) : ℤ) - 1 = tm.tmMon by omega] at ht
  have h1970 : civilDays 1970 1 1 = 719528 := by decide
  unfold timegmNoleapsecond
  dsimp only
  rw [cDiv_eq _ (by decide), cDiv_eq _ (by decide), cDiv_eq _ (by decide), h1970]
  unfold yearStart
  split_ifs at ht ⊢ <;> omega

/-- `timegmw_noleapsecond` is `timegm_noleapsecond` in `TIME_SCALE` units, on a `vtm` with the
fields of a `struct tm` (`tm_year` from 1900, `tm_mon` from 0). -/
theorem timegmwNoleapsecond_eq_timegm (vtm : Vtm) (tm : Tm) (h1 : 1 ≤ vtm.mon)
    (h12 : vtm.mon ≤ 12) (hyear : vtm.year = tm.tmYear + 1900) (hmon : (vtm.mon : ℤ) = tm.tmMon + 1)
    (hmday : (vtm.mday : ℤ) = tm.tmMday) (hhour : (vtm.hour : ℤ) = tm.tmHour)
    (hmin : (vtm.min : ℤ) = tm.tmMin) (hsec : (vtm.sec : ℤ) = tm.tmSec) (hsub : vtm.subsecx = 0) :
    timegmwNoleapsecond vtm = timeScale * timegmNoleapsecond tm := by
  rw [timegmwNoleapsecond_eq vtm h1 h12, timegmNoleapsecond_eq tm (by omega) (by omega),
    show tm.tmMon.toNat + 1 = vtm.mon by omega, ← hyear, hsub, civilDays]
  rw [hmday, hhour, hmin, hsec]
  unfold timeScale
  omega

/-- On the fields of a `struct tm` in their ranges and an `int` `tm_year`, every term of
`timegm_noleapsecond` and its result fit in 64 bits, so its `long` and `time_t` arithmetic is the
integer arithmetic of the model. -/
theorem timegmNoleapsecond_bounds (tm : Tm) (h0 : 0 ≤ tm.tmMon) (h11 : tm.tmMon < 12)
    (hy : -2 ^ 31 ≤ tm.tmYear ∧ tm.tmYear < 2 ^ 31) (hd : 1 ≤ tm.tmMday ∧ tm.tmMday ≤ 31)
    (hh : 0 ≤ tm.tmHour ∧ tm.tmHour < 24) (hm : 0 ≤ tm.tmMin ∧ tm.tmMin < 60)
    (hs : 0 ≤ tm.tmSec ∧ tm.tmSec ≤ 60) :
    -2 ^ 62 < timegmNoleapsecond tm ∧ timegmNoleapsecond tm < 2 ^ 62 := by
  have hb0 := daysBeforeMonth_nonneg (tm.tmYear + 1900) (tm.tmMon.toNat + 1)
  have hb1 := daysBeforeMonth_mono (tm.tmYear + 1900) (show tm.tmMon.toNat + 1 ≤ 13 by omega)
  have hyl := daysInYear_le (tm.tmYear + 1900)
  rw [daysBeforeMonth_thirteen] at hb1
  have h1970 : civilDays 1970 1 1 = 719528 := by decide
  rw [timegmNoleapsecond_eq tm h0 h11, h1970]
  unfold yearStart
  omega

/-- **`gmtimew_noleapsecond` and `timegmw_noleapsecond` are inverse** between time values and
valid UTC broken-down times, and `timegm_noleapsecond` agrees with `timegmw_noleapsecond`. -/
theorem gmtime_timegm_inverse :
    (∀ (t : ℤ) (vtm : Vtm), let r := gmtimewNoleapsecond t vtm
      Valid r.year r.mon r.mday ∧ r.hour < 24 ∧ r.min < 60 ∧ r.sec < 60 ∧
        0 ≤ r.subsecx ∧ r.subsecx < timeScale ∧
        (r.yday : ℤ) = 1 + (civilDays r.year r.mon r.mday - civilDays r.year 1 1) ∧
        (r.wday : ℤ) = weekday (civilDays r.year r.mon r.mday) ∧ timegmwNoleapsecond r = t) ∧
    (∀ vtm vtm' : Vtm, Valid vtm.year vtm.mon vtm.mday → vtm.hour < 24 → vtm.min < 60 →
      vtm.sec < 60 → 0 ≤ vtm.subsecx → vtm.subsecx < timeScale →
      let r := gmtimewNoleapsecond (timegmwNoleapsecond vtm) vtm'
      r.year = vtm.year ∧ r.mon = vtm.mon ∧ r.mday = vtm.mday ∧ r.hour = vtm.hour ∧
        r.min = vtm.min ∧ r.sec = vtm.sec ∧ r.subsecx = vtm.subsecx) ∧
    (∀ (vtm : Vtm) (tm : Tm), 1 ≤ vtm.mon → vtm.mon ≤ 12 → vtm.year = tm.tmYear + 1900 →
      (vtm.mon : ℤ) = tm.tmMon + 1 → (vtm.mday : ℤ) = tm.tmMday → (vtm.hour : ℤ) = tm.tmHour →
      (vtm.min : ℤ) = tm.tmMin → (vtm.sec : ℤ) = tm.tmSec → vtm.subsecx = 0 →
      timegmwNoleapsecond vtm = timeScale * timegmNoleapsecond tm) :=
  ⟨gmtimewNoleapsecond_spec, gmtimew_timegmw, timegmwNoleapsecond_eq_timegm⟩

end CRuby.Time
