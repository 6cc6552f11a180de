import Mathlib.Data.Int.Init
import Mathlib.Tactic.SplitIfs

/-!
# The proleptic Gregorian calendar

Dates are counted in days from 0000-01-01 of the proleptic Gregorian calendar, with years of
every sign (year 0 is 1 BC). A year is a leap year by the 4/100/400 rule (`IsLeap`).

* `yearStart y` is the day of `y`-01-01: `365 * y` plus the leap years in `[0, y)`. It grows
  by `daysInYear y` from one year to the next (`yearStart_succ`) and by 146097 days over 400
  years (`yearStart_add_400`), so it is strictly increasing (`yearStart_lt_yearStart`).
* `civilDays y m d` is the day of a date; `Valid y m d` says the date exists. The day of a valid
  date falls in its year (`yearStart_le_civilDays`, `civilDays_lt_yearStart_succ`), and two valid
  dates on the same day are the same date (`Valid.eq_of_civilDays_eq`).
* the calendar repeats every 400 years, 146097 days (`yearStart_add_mul_400`,
  `isLeap_add_mul_400`), and a year's months depend on it only through `IsLeap`
  (`daysBeforeMonth_congr`);
* `weekday` numbers the days of the week from Sunday; 0000-01-01 was a Saturday.
-/

namespace Gregorian

/-- The 4/100/400 rule. -/
def IsLeap (y : ℤ) : Prop := y % 4 = 0 ∧ y % 100 ≠ 0 ∨ y % 400 = 0

instance : DecidablePred IsLeap := fun _ => inferInstanceAs (Decidable (_ ∨ _))

/-- 366 or 365. -/
def daysInYear (y : ℤ) : ℤ := if IsLeap y then 366 else 365

/-- The length of month `m` (January is 1). -/
def daysInMonth (y : ℤ) : ℕ → ℤ
  | 2 => if IsLeap y then 29 else 28
  | 4 | 6 | 9 | 11 => 30
  | _ => 31

/-- The days of year `y` before the first of month `m`. -/
def daysBeforeMonth (y : ℤ) : ℕ → ℤ
  | 0 | 1 => 0
  | m + 2 => daysBeforeMonth y (m + 1) + daysInMonth y (m + 1)

/-- The day of `y`-01-01, counted from 0000-01-01. -/
def yearStart (y : ℤ) : ℤ := 365 * y + (y + 3) / 4 - (y + 99) / 100 + (y + 399) / 400

/-- The date `y`-`m`-`d` exists. -/
structure Valid (y : ℤ) (m d : ℕ) : Prop where
  one_le_mon : 1 ≤ m
  mon_le : m ≤ 12
  one_le_day : 1 ≤ d
  day_le : d ≤ daysInMonth y m

instance (y : ℤ) (m d : ℕ) : Decidable (Valid y m d) :=
  decidable_of_iff (1 ≤ m ∧ m ≤ 12 ∧ 1 ≤ d ∧ d ≤ daysInMonth y m)
    ⟨fun ⟨h1, h2, h3, h4⟩ => ⟨h1, h2, h3, h4⟩, fun ⟨h1, h2, h3, h4⟩ => ⟨h1, h2, h3, h4⟩⟩

/-- The day of the date `y`-`m`-`d`, counted from 0000-01-01. -/
def civilDays (y : ℤ) (m d : ℕ) : ℤ := yearStart y + daysBeforeMonth y m + (d - 1)

/-- The day of the week of day `n` (0 is Sunday). -/
def weekday (n : ℤ) : ℤ := (n + 6) % 7

example : civilDays 1970 1 1 = 719528 ∧ weekday (civilDays 1970 1 1) = 4 := by decide

/-! ## Years -/

theorem daysInYear_pos (y : ℤ) : 0 < daysInYear y := by
  unfold daysInYear
  split_ifs <;> omega

theorem yearStart_succ (y : ℤ) : yearStart (y + 1) = yearStart y + daysInYear y := by
  unfold yearStart daysInYear IsLeap
  split_ifs <;> omega

theorem yearStart_add_400 (y : ℤ) : yearStart (y + 400) = yearStart y + 146097 := by
  unfold yearStart
  omega

theorem yearStart_add_mul_400 (y q : ℤ) : yearStart (y + 400 * q) = yearStart y + 146097 * q := by
  unfold yearStart
  omega

/-- The calendar repeats every 400 years. -/
theorem isLeap_add_mul_400 (y q : ℤ) : IsLeap (y + 400 * q) ↔ IsLeap y := by
  unfold IsLeap
  omega

theorem daysInYear_le (y : ℤ) : daysInYear y ≤ 366 := by
  unfold daysInYear
  split_ifs <;> omega

/-- The lengths of a year and of its months depend on the year only through `IsLeap`. -/
theorem daysInYear_congr {x y : ℤ} (h : IsLeap x ↔ IsLeap y) : daysInYear x = daysInYear y := by
  simp only [daysInYear, h]

theorem yearStart_lt_add (y : ℤ) (k : ℕ) : yearStart y < yearStart (y + k + 1) := by
  -- one year at a time
  induction k with
  | zero =>
    have h1 := yearStart_succ y
    have h2 := daysInYear_pos y
    rw [show y + ((0 : ℕ) : ℤ) + 1 = y + 1 by omega]
    omega
  | succ k ih =>
    have h1 := yearStart_succ (y + k + 1)
    have h2 := daysInYear_pos (y + k + 1)
    rw [show y + ((k + 1 : ℕ) : ℤ) + 1 = y + k + 1 + 1 by omega]
    omega

theorem yearStart_lt_yearStart {y y' : ℤ} (h : y < y') : yearStart y < yearStart y' := by
  have := yearStart_lt_add y (y' - y - 1).toNat
  rwa [show y + ((y' - y - 1).toNat : ℤ) + 1 = y' by omega] at this

theorem yearStart_le_yearStart {y y' : ℤ} (h : y ≤ y') : yearStart y ≤ yearStart y' := by
  rcases Int.lt_or_eq_of_le h with h | rfl
  · exact Int.le_of_lt (yearStart_lt_yearStart h)
  · exact Int.le_refl _

/-! ## Months -/

theorem daysInMonth_pos (y : ℤ) (m : ℕ) : 0 < daysInMonth y m := by
  unfold daysInMonth
  split <;> (try split_ifs) <;> omega

theorem daysInMonth_le (y : ℤ) (m : ℕ) : daysInMonth y m ≤ 31 := by
  unfold daysInMonth
  split <;> (try split_ifs) <;> omega

theorem daysInMonth_congr {x y : ℤ} (h : IsLeap x ↔ IsLeap y) (m : ℕ) :
    daysInMonth x m = daysInMonth y m := by
  unfold daysInMonth
  split <;> simp only [h]

theorem daysBeforeMonth_succ (y : ℤ) {m : ℕ} (hm : 1 ≤ m) :
    daysBeforeMonth y (m + 1) = daysBeforeMonth y m + daysInMonth y m := by
  obtain ⟨k, rfl⟩ : ∃ k, m = k + 1 := ⟨m - 1, by omega⟩
  rfl

theorem daysBeforeMonth_nonneg (y : ℤ) (m : ℕ) : 0 ≤ daysBeforeMonth y m := by
  induction m with
  | zero => exact Int.le_refl 0
  | succ m ih =>
    rcases Nat.eq_zero_or_pos m with rfl | hm
    · exact Int.le_refl 0
    · have := daysInMonth_pos y m
      rw [daysBeforeMonth_succ y hm]
      omega

/-- A later month starts later: the days before month `m` and the whole of it come before
month `m'`. -/
theorem daysBeforeMonth_add_le {m m' : ℕ} (y : ℤ) (hm : 1 ≤ m) (h : m < m') :
    daysBeforeMonth y m + daysInMonth y m ≤ daysBeforeMonth y m' := by
  induction m' with
  | zero => omega
  | succ m' ih =>
    rcases Nat.lt_succ_iff_lt_or_eq.mp h with h | rfl
    · have := ih h
      have := daysInMonth_pos y m'
      rw [daysBeforeMonth_succ y (by omega)]
      omega
    · exact Int.le_of_eq (daysBeforeMonth_succ y hm).symm

theorem daysBeforeMonth_thirteen (y : ℤ) : daysBeforeMonth y 13 = daysInYear y := by
  simp only [daysBeforeMonth, daysInMonth, daysInYear]
  split_ifs <;> rfl

theorem daysBeforeMonth_mono (y : ℤ) {m m' : ℕ} (h : m ≤ m') :
    daysBeforeMonth y m ≤ daysBeforeMonth y m' := by
  rcases Nat.eq_zero_or_pos m with rfl | hm
  · exact daysBeforeMonth_nonneg y m'
  rcases Nat.lt_or_eq_of_le h with h | rfl
  · have := daysBeforeMonth_add_le y hm h
    have := daysInMonth_pos y m
    omega
  · exact Int.le_refl _

theorem daysBeforeMonth_congr {x y : ℤ} (h : IsLeap x ↔ IsLeap y) (m : ℕ) :
    daysBeforeMonth x m = daysBeforeMonth y m := by
  induction m with
  | zero => rfl
  | succ m ih =>
    rcases Nat.eq_zero_or_pos m with rfl | hm
    · rfl
    · rw [daysBeforeMonth_succ x hm, daysBeforeMonth_succ y hm, ih, daysInMonth_congr h]

/-- Every day of a year falls in one of its months. -/
theorem exists_month {y n : ℤ} (h0 : 0 ≤ n) (h1 : n < daysInYear y) :
    ∃ m, 1 ≤ m ∧ m ≤ 12 ∧ daysBeforeMonth y m ≤ n ∧ n < daysBeforeMonth y (m + 1) := by
  -- the last month that starts by day `n`, among the first `k`
  have key : ∀ k, n < daysBeforeMonth y (k + 1) →
      ∃ m, 1 ≤ m ∧ m ≤ k ∧ daysBeforeMonth y m ≤ n ∧ n < daysBeforeMonth y (m + 1) := by
    intro k
    induction k with
    | zero =>
      intro h
      exact absurd h (by simp only [daysBeforeMonth]; omega)
    | succ k ih =>
      intro h
      by_cases hk : n < daysBeforeMonth y (k + 1)
      · obtain ⟨m, hm1, hmk, hlo, hhi⟩ := ih hk
        exact ⟨m, hm1, by omega, hlo, hhi⟩
      · exact ⟨k + 1, by omega, Nat.le_refl _, by omega, h⟩
  exact key 12 (by rw [daysBeforeMonth_thirteen]; exact h1)

/-! ## Dates -/

theorem Valid.dayOfYear_lt {y : ℤ} {m d : ℕ} (h : Valid y m d) :
    daysBeforeMonth y m + (d - 1) < daysInYear y := by
  have hd := h.day_le
  rcases Nat.lt_or_ge m 12 with hm | hm
  · have := daysBeforeMonth_add_le y h.one_le_mon (show m < 13 by omega)
    rw [daysBeforeMonth_thirteen] at this
    omega
  · obtain rfl : m = 12 := Nat.le_antisymm h.mon_le hm
    have h13 := daysBeforeMonth_succ y (show 1 ≤ 12 by omega)
    rw [daysBeforeMonth_thirteen] at h13
    omega

theorem Valid.congr {x y : ℤ} {m d : ℕ} (h : IsLeap x ↔ IsLeap y) (hv : Valid x m d) :
    Valid y m d :=
  ⟨hv.one_le_mon, hv.mon_le, hv.one_le_day, daysInMonth_congr h m ▸ hv.day_le⟩

theorem yearStart_le_civilDays {y : ℤ} {m d : ℕ} (h : Valid y m d) :
    yearStart y ≤ civilDays y m d := by
  have := daysBeforeMonth_nonneg y m
  have := h.one_le_day
  unfold civilDays
  omega

theorem civilDays_lt_yearStart_succ {y : ℤ} {m d : ℕ} (h : Valid y m d) :
    civilDays y m d < yearStart (y + 1) := by
  have := h.dayOfYear_lt
  rw [yearStart_succ]
  unfold civilDays
  omega

/-- The year of a valid date is the one whose days hold it. -/
theorem Valid.year_eq {y y' : ℤ} {m d m' d' : ℕ} (h : Valid y m d) (h' : Valid y' m' d')
    (he : civilDays y m d = civilDays y' m' d') : y = y' := by
  rcases Int.lt_trichotomy y y' with hlt | heq | hlt
  · have := yearStart_le_yearStart (show y + 1 ≤ y' by omega)
    have := civilDays_lt_yearStart_succ h
    have := yearStart_le_civilDays h'
    omega
  · exact heq
  · have := yearStart_le_yearStart (show y' + 1 ≤ y by omega)
    have := civilDays_lt_yearStart_succ h'
    have := yearStart_le_civilDays h
    omega

/-- In one year, the month of a valid date is the one whose days hold it. -/
theorem Valid.mon_eq {y : ℤ} {m d m' d' : ℕ} (h : Valid y m d) (h' : Valid y m' d')
    (he : daysBeforeMonth y m + (d - 1) = daysBeforeMonth y m' + (d' - 1)) : m = m' := by
  have hd := h.day_le
  have hd' := h'.day_le
  have := h.one_le_day
  have := h'.one_le_day
  rcases Nat.lt_trichotomy m m' with hlt | heq | hlt
  · have := daysBeforeMonth_add_le y h.one_le_mon hlt
    omega
  · exact heq
  · have := daysBeforeMonth_add_le y h'.one_le_mon hlt
    omega

/-- **Two valid dates on the same day are the same date.** -/
theorem Valid.eq_of_civilDays_eq {y y' : ℤ} {m d m' d' : ℕ} (h : Valid y m d)
    (h' : Valid y' m' d') (he : civilDays y m d = civilDays y' m' d') :
    y = y' ∧ m = m' ∧ d = d' := by
  obtain rfl := h.year_eq h' he
  unfold civilDays at he
  obtain rfl := h.mon_eq h' (by omega)
  exact ⟨rfl, rfl, by omega⟩

/-! ## The next and the previous day -/

/-- The date after `y`-`m`-`d`. -/
def nextDay (y : ℤ) (m d : ℕ) : ℤ × ℕ × ℕ :=
  if (d : ℤ) < daysInMonth y m then (y, m, d + 1)
  else if m < 12 then (y, m + 1, 1)
  else (y + 1, 1, 1)

/-- The date before `y`-`m`-`d`. -/
def prevDay (y : ℤ) (m d : ℕ) : ℤ × ℕ × ℕ :=
  if 1 < d then (y, m, d - 1)
  else if 1 < m then (y, m - 1, (daysInMonth y (m - 1)).toNat)
  else (y - 1, 12, 31)

/-- The day of a date counted from the first of its year, from 0. -/
theorem civilDays_sub_newYear (y : ℤ) (m d : ℕ) :
    civilDays y m d - civilDays y 1 1 = daysBeforeMonth y m + d - 1 := by
  unfold civilDays
  simp only [daysBeforeMonth]
  omega

/-- December has 31 days, and the days before it are the rest of the year. -/
theorem daysBeforeMonth_twelve (y : ℤ) : daysBeforeMonth y 12 + 31 = daysInYear y := by
  rw [← daysBeforeMonth_thirteen, daysBeforeMonth_succ y (by omega)]
  rfl

/-- **The next day** of a valid date is a valid date, one day later. -/
theorem Valid.nextDay {y : ℤ} {m d : ℕ} (h : Valid y m d) :
    Valid (nextDay y m d).1 (nextDay y m d).2.1 (nextDay y m d).2.2 ∧
      civilDays (nextDay y m d).1 (nextDay y m d).2.1 (nextDay y m d).2.2 =
        civilDays y m d + 1 := by
  have hd := h.day_le
  unfold Gregorian.nextDay
  split_ifs with hlt hm <;> dsimp only
  · -- a day of the same month
    exact ⟨⟨h.one_le_mon, h.mon_le, by omega, by omega⟩, by unfold civilDays; push_cast; omega⟩
  · -- the first of the next month
    have hnext := daysBeforeMonth_succ y h.one_le_mon
    have hpos := daysInMonth_pos y (m + 1)
    exact ⟨⟨by omega, by omega, Nat.le_refl 1, by omega⟩, by unfold civilDays; push_cast; omega⟩
  · -- the first of January of the next year
    obtain rfl : m = 12 := by have := h.mon_le; omega
    have hd31 : (d : ℤ) = 31 := by simp only [daysInMonth] at hd hlt; omega
    have hstart := yearStart_succ y
    have hdec := daysBeforeMonth_twelve y
    have hjan : daysBeforeMonth (y + 1) 1 = 0 := rfl
    refine ⟨⟨Nat.le_refl 1, by omega, Nat.le_refl 1, by simp [daysInMonth]⟩, ?_⟩
    unfold civilDays
    rw [hjan]
    omega

/-- **The previous day** of a valid date is a valid date, one day earlier. -/
theorem Valid.prevDay {y : ℤ} {m d : ℕ} (h : Valid y m d) :
    Valid (prevDay y m d).1 (prevDay y m d).2.1 (prevDay y m d).2.2 ∧
      civilDays (prevDay y m d).1 (prevDay y m d).2.1 (prevDay y m d).2.2 =
        civilDays y m d - 1 := by
  have hd := h.day_le
  have hd1 := h.one_le_day
  unfold Gregorian.prevDay
  split_ifs with hlt hm <;> dsimp only
  · -- a day of the same month
    exact ⟨⟨h.one_le_mon, h.mon_le, by omega, by omega⟩, by unfold civilDays; omega⟩
  · -- the last day of the previous month
    have hprev := daysBeforeMonth_succ y (show 1 ≤ m - 1 by omega)
    rw [Nat.sub_add_cancel (by omega)] at hprev
    have hpos := daysInMonth_pos y (m - 1)
    have hm12 := h.mon_le
    refine ⟨⟨by omega, by omega, by omega, by omega⟩, ?_⟩
    unfold civilDays
    omega
  · -- the last day of December of the previous year
    obtain rfl : m = 1 := by have := h.one_le_mon; omega
    obtain rfl : d = 1 := by omega
    have hstart := yearStart_succ (y - 1)
    rw [Int.sub_add_cancel] at hstart
    have hdec := daysBeforeMonth_twelve (y - 1)
    have hjan : daysBeforeMonth y 1 = 0 := rfl
    refine ⟨⟨by omega, Nat.le_refl 12, by omega, by simp [daysInMonth]⟩, ?_⟩
    unfold civilDays
    rw [hjan]
    omega

end Gregorian
