import CRuby.Time.GmtimeSpec
import Mathlib.Data.Rat.Floor
import Mathlib.Tactic.LinearCombination

/-!
# `vtm_add_offset` (time.c)

`vtm_add_offset(vtm, off)` moves a broken-down time by an offset `off` of less than a day,
given in seconds as an Integer or a Rational: it subtracts `off` from `utc_offset`, splits the
size of `off` into a fraction and whole seconds, minutes and hours, and adds each part to its
field with one carry or borrow into the next; a change of day moves the date by one day,
with `yday` and `wday`.

A Rational offset makes `subsecx` a Rational too, so `VtmQ` is `struct vtm` with `subsecx` and
`utc_offset` as rationals; its calendar fields are those of `Vtm`. `timegmw_noleapsecond` of a
`VtmQ` is the sum of its calendar fields, as for a `Vtm`, plus `subsecx` (`wadd` of `v2w`).

For every consistent `vtm` (fields in range, a real date, `yday` and `wday` those of the date)
and every `off` with `|off| < 86400`, the result is consistent, its `utc_offset` is the old one
minus `off`, and it denotes the instant `off` seconds later (`vtm_add_offset_shifts`). The proof
gives each block of the C code its spec as an equation between sums (`addSubsec_spec`,
`addCarry_spec`, `addHour_spec`, `vtmAddDay_spec`) and chains them.
-/

namespace CRuby.Time

open Gregorian

/-- `common_year_days_in_month`. -/
def commonYearDaysInMonth : List ℤ := [31, 28, 31, 30, 31, 30, 31, 31, 30, 31, 30, 31]

/-- `leap_year_days_in_month`. -/
def leapYearDaysInMonth : List ℤ := [31, 29, 31, 30, 31, 30, 31, 31, 30, 31, 30, 31]

/-- `leap_year_v_p(y)`: `leap_year_p(NUM2LONG(modv(y, INT2FIX(400))))`. -/
def leapYearVP (y : ℤ) : Bool := leapYearP (modv y 400)

/-- `struct vtm` with its `VALUE` fields `subsecx` and `utc_offset` as the Integer or Rational
they hold. `zone` and `isdst`, which `vtm_add_offset` does not touch, are left out. -/
structure VtmQ where
  year : ℤ
  subsecx : ℚ
  utcOffset : ℚ
  /-- 9 bits -/
  yday : ℕ
  /-- 4 bits -/
  mon : ℕ
  /-- 5 bits -/
  mday : ℕ
  /-- 5 bits -/
  hour : ℕ
  /-- 6 bits -/
  min : ℕ
  /-- 6 bits -/
  sec : ℕ
  /-- 3 bits -/
  wday : ℕ
  deriving DecidableEq, Repr

/-- The calendar fields of a `VtmQ` as a `Vtm` with no subsecond and no offset. -/
def VtmQ.calendar (v : VtmQ) : Vtm :=
  ⟨v.year, 0, 0, "", v.yday, v.mon, v.mday, v.hour, v.min, v.sec, v.wday, 0⟩

/-- `timegmw_noleapsecond(vtm)`: the calendar fields counted as for a `Vtm`, then
`wret = wadd(wret, v2w(vtm->subsecx))`. -/
def timegmwNoleapsecondQ (v : VtmQ) : ℚ := (timegmwNoleapsecond v.calendar : ℚ) + v.subsecx

/-! ## The blocks of `vtm_add_offset` -/

/-- The parts of an offset after `divmodv` by 1, 60, 60 and 24, with the offset's sign: the
fraction `subsec`, and the whole `sec`, `min` and `hour`. The days, the last quotient, are
dropped. -/
structure OffsetParts where
  subsec : ℚ
  sec : ℤ
  min : ℤ
  hour : ℤ

/-- The start of `vtm_add_offset`: the sign of `off`, then `divmodv(off, INT2FIX(1), &off,
&subsec)` (`Rational#divmod` for a Rational), and `divmodv` by 60, 60 and 24 of the whole
seconds; each part is negated for a negative offset. -/
def splitOffset (off : ℚ) : OffsetParts :=
  let sign : ℤ := if off < 0 then -1 else 1
  let off := if off < 0 then -off else off
  let subsec := off - ⌊off⌋
  let off := ⌊off⌋
  let sec := (divmodv off 60).2
  let off := (divmodv off 60).1
  let min := (divmodv off 60).2
  let off := (divmodv off 60).1
  let hour := (divmodv off 24).2
  if sign < 0 then ⟨-subsec, -sec, -min, -hour⟩ else ⟨subsec, sec, min, hour⟩

/-- The subsecond block: `vtm->subsecx` plus the magnified fraction, with one borrow from or
carry into `sec`. -/
def addSubsec (subsecx subsec : ℚ) (sec : ℤ) : ℚ × ℤ :=
  let subsecx := subsecx + subsec * timeScale
  let (subsecx, sec) := if subsecx < 0 then (subsecx + timeScale, sec - 1) else (subsecx, sec)
  if timeScale ≤ subsecx then (subsecx - timeScale, sec + 1) else (subsecx, sec)

/-- The block for seconds or minutes: `x += vtm->f; if (x < 0) { x += n; next -= 1; } if (n <= x)
{ x -= n; next += 1; } vtm->f = x;`, the store into a bit-field of `w` bits. -/
def addCarry (n : ℤ) (w : ℕ) (x : ℤ) (field : ℕ) (next : ℤ) : ℕ × ℤ :=
  let x := x + field
  let (x, next) := if x < 0 then (x + n, next - 1) else (x, next)
  if n ≤ x then (bitField w (x - n), next + 1) else (bitField w x, next)

/-- The block for hours: like `addCarry`, but it sets `day` to -1 or 1 rather than moving it. -/
def addHour (hour : ℤ) (field : ℕ) : ℕ × ℤ :=
  let hour := hour + field
  let (hour, day) := if hour < 0 then (hour + 24, (-1 : ℤ)) else (hour, 0)
  if 24 ≤ hour then (bitField 5 (hour - 24), 1) else (bitField 5 hour, day)

/-- The block `if (day)`: one day back or forward, across a month end or a year end, with
`yday` and `wday`. -/
def vtmAddDay (vtm : VtmQ) (day : ℤ) : VtmQ :=
  if day < 0 then
    let vtm :=
      if vtm.mon = 1 ∧ vtm.mday = 1 then
        let year := vtm.year - 1
        { vtm with mday := 31, mon := 12, year := year,
                   yday := if leapYearVP year then 366 else 365 }
      else if vtm.mday = 1 then
        let daysInMonth := if leapYearVP vtm.year then leapYearDaysInMonth
          else commonYearDaysInMonth
        let mon := bitField 4 ((vtm.mon : ℤ) - 1)
        { vtm with mon := mon, mday := bitField 5 (tableAt daysInMonth ((mon : ℤ) - 1)),
                   yday := bitField 9 ((vtm.yday : ℤ) - 1) }
      else
        { vtm with mday := bitField 5 ((vtm.mday : ℤ) - 1),
                   yday := bitField 9 ((vtm.yday : ℤ) - 1) }
    { vtm with wday := bitField 3 (((vtm.wday : ℤ) + 6) % 7) }
  else
    let leap := leapYearVP vtm.year
    let vtm :=
      if vtm.mon = 12 ∧ vtm.mday = 31 then
        { vtm with year := vtm.year + 1, mon := 1, mday := 1, yday := 1 }
      else if (vtm.mday : ℤ) =
          tableAt (if leap then leapYearDaysInMonth else commonYearDaysInMonth)
            ((vtm.mon : ℤ) - 1) then
        { vtm with mon := bitField 4 ((vtm.mon : ℤ) + 1), mday := 1,
                   yday := bitField 9 ((vtm.yday : ℤ) + 1) }
      else
        { vtm with mday := bitField 5 ((vtm.mday : ℤ) + 1),
                   yday := bitField 9 ((vtm.yday : ℤ) + 1) }
    { vtm with wday := bitField 3 (((vtm.wday : ℤ) + 1) % 7) }

/-- `vtm_add_offset(vtm, off)`. The subsecond block jumps into the seconds block
(`goto not_zero_sec`), so the seconds are added when the fraction or the seconds are not
zero; every later block runs when its amount, carries included, is not zero. -/
def vtmAddOffset (vtm : VtmQ) (off : ℚ) : VtmQ :=
  let p := splitOffset off
  let subsecSec := if p.subsec ≠ 0 then addSubsec vtm.subsecx p.subsec p.sec
    else (vtm.subsecx, p.sec)
  let secMin := if p.subsec ≠ 0 ∨ subsecSec.2 ≠ 0 then addCarry 60 6 subsecSec.2 vtm.sec p.min
    else (vtm.sec, p.min)
  let minHour := if secMin.2 ≠ 0 then addCarry 60 6 secMin.2 vtm.min p.hour
    else (vtm.min, p.hour)
  let hourDay := if minHour.2 ≠ 0 then addHour minHour.2 vtm.hour else (vtm.hour, 0)
  let vtm := { vtm with utcOffset := vtm.utcOffset - off, subsecx := subsecSec.1,
                        sec := secMin.1, min := minHour.1, hour := hourDay.1 }
  if hourDay.2 ≠ 0 then vtmAddDay vtm hourDay.2 else vtm

/-! ## What a consistent `vtm` is -/

/-- The date of a `vtm` is a real date, and `yday` and `wday` are those of the date. -/
structure VtmQ.DateConsistent (v : VtmQ) : Prop where
  valid : Valid v.year v.mon v.mday
  yday_eq : (v.yday : ℤ) = 1 + (civilDays v.year v.mon v.mday - civilDays v.year 1 1)
  wday_eq : (v.wday : ℤ) = weekday (civilDays v.year v.mon v.mday)

/-- A `vtm` that denotes a moment: a consistent date and the time fields in range. -/
structure VtmQ.Consistent (v : VtmQ) : Prop extends v.DateConsistent where
  hour_lt : v.hour < 24
  min_lt : v.min < 60
  sec_lt : v.sec < 60
  subsecx_nonneg : 0 ≤ v.subsecx
  subsecx_lt : v.subsecx < timeScale

/-- `timegmw_noleapsecond` of a `VtmQ` counts `TIME_SCALE` units from 1970-01-01 by the
calendar, for a month in 1..12. -/
theorem timegmwNoleapsecondQ_eq (v : VtmQ) (h1 : 1 ≤ v.mon) (h12 : v.mon ≤ 12) :
    timegmwNoleapsecondQ v =
      (timeScale * (86400 * (civilDays v.year v.mon v.mday - civilDays 1970 1 1) +
        v.sec + 60 * v.min + 3600 * v.hour) : ℤ) + v.subsecx := by
  rw [timegmwNoleapsecondQ, timegmwNoleapsecond_eq v.calendar h1 h12]
  simp [VtmQ.calendar]

/-! ## The offset -/

/-- **The parts of the offset.** For an offset of less than a day they add up to it, each with
the offset's sign and below its unit. -/
theorem splitOffset_spec (off : ℚ) (hoff : |off| < 86400) :
    (splitOffset off).subsec + (splitOffset off).sec + 60 * (splitOffset off).min +
        3600 * (splitOffset off).hour = off ∧
      -1 < (splitOffset off).subsec ∧ (splitOffset off).subsec < 1 ∧
      -60 < (splitOffset off).sec ∧ (splitOffset off).sec < 60 ∧
      -60 < (splitOffset off).min ∧ (splitOffset off).min < 60 ∧
      -24 < (splitOffset off).hour ∧ (splitOffset off).hour < 24 := by
  -- the size of the offset is its whole seconds `q` plus a fraction
  have habs : |off| = if off < 0 then -off else off := by
    split_ifs with h
    · exact abs_of_neg h
    · exact abs_of_nonneg (not_lt.mp h)
  set a := if off < 0 then -off else off with ha
  have ha0 : 0 ≤ a := by rw [← habs]; exact abs_nonneg off
  have hq0 : 0 ≤ ⌊a⌋ := Int.floor_nonneg.mpr ha0
  have hq1 : ⌊a⌋ < 86400 := Int.floor_lt.mpr (by rw [← habs]; exact_mod_cast hoff)
  have hf0 : 0 ≤ a - ⌊a⌋ := sub_nonneg.mpr (Int.floor_le a)
  have hf1 : a - ⌊a⌋ < 1 := by linarith [Int.lt_floor_add_one a]
  -- the whole seconds are `sec + 60 * min + 3600 * hour`, and the days are 0
  have hq : (⌊a⌋ % 60 + 60 * (⌊a⌋ / 60 % 60) + 3600 * (⌊a⌋ / 60 / 60 % 24) : ℤ) = ⌊a⌋ := by
    omega
  have hqQ : ((⌊a⌋ % 60 : ℤ) : ℚ) + 60 * ((⌊a⌋ / 60 % 60 : ℤ) : ℚ) +
      3600 * ((⌊a⌋ / 60 / 60 % 24 : ℤ) : ℚ) = ⌊a⌋ := by exact_mod_cast hq
  unfold splitOffset
  simp only [divmodv_eq _ (show (0 : ℤ) < 60 by decide),
    divmodv_eq _ (show (0 : ℤ) < 24 by decide), ← ha]
  by_cases hneg : off < 0
  · -- a negative offset: every part negated
    have hsign : off = -a := by rw [ha, if_pos hneg, neg_neg]
    simp only [hneg, if_true, show (-1 : ℤ) < 0 by decide]
    refine ⟨?_, by linarith, by linarith, by omega, by omega, by omega, by omega, by omega,
      by omega⟩
    push_cast
    linarith
  · have hsign : off = a := by rw [ha, if_neg hneg]
    simp only [hneg, if_false, show ¬(1 : ℤ) < 0 by decide]
    exact ⟨by linarith, by linarith, by linarith, by omega, by omega, by omega, by omega,
      by omega, by omega⟩

/-! ## The blocks -/

/-- **The subsecond block** keeps `subsecx` in `[0, TIME_SCALE)` and moves at most one second
into `sec`; the sum of the two is the old sum plus the magnified fraction. -/
theorem addSubsec_spec {subsecx subsec : ℚ} (sec : ℤ) (hx0 : 0 ≤ subsecx)
    (hx1 : subsecx < timeScale) (hs0 : -1 < subsec) (hs1 : subsec < 1) :
    0 ≤ (addSubsec subsecx subsec sec).1 ∧ (addSubsec subsecx subsec sec).1 < timeScale ∧
      (addSubsec subsecx subsec sec).1 + timeScale * (addSubsec subsecx subsec sec).2 =
        subsecx + subsec * timeScale + timeScale * sec ∧
      sec - 1 ≤ (addSubsec subsecx subsec sec).2 ∧ (addSubsec subsecx subsec sec).2 ≤ sec + 1 := by
  have hts : (0 : ℚ) < timeScale := by norm_num [timeScale]
  have hmag0 : -(timeScale : ℚ) < subsec * timeScale := by nlinarith
  have hmag1 : subsec * timeScale < (timeScale : ℚ) := by nlinarith
  -- a borrow, a carry, or neither; never both
  by_cases hneg : subsecx + subsec * timeScale < 0
  · have hnc : ¬(timeScale : ℚ) ≤ subsecx + subsec * timeScale + timeScale := by linarith
    simp only [addSubsec, hneg, if_true, hnc, if_false]
    exact ⟨by linarith, by linarith, by push_cast; ring, by omega, by omega⟩
  · by_cases hcarry : (timeScale : ℚ) ≤ subsecx + subsec * timeScale
    · simp only [addSubsec, hneg, if_false, hcarry, if_true]
      exact ⟨by linarith, by linarith, by push_cast; ring, by omega, by omega⟩
    · simp only [addSubsec, hneg, if_false, hcarry]
      exact ⟨by linarith, by linarith, trivial, by omega, by omega⟩

/-- What a block for seconds, minutes or hours leaves: the field below its unit `n`, and the
field plus `n` times the new carry equal to the amount `x` plus the old field plus `n` times
the old carry, which moved by at most one. -/
structure Carried (n x : ℤ) (field : ℕ) (next : ℤ) (r : ℕ × ℤ) : Prop where
  lt : (r.1 : ℤ) < n
  sum : (r.1 : ℤ) + n * r.2 = x + field + n * next
  ge : next - 1 ≤ r.2
  le : r.2 ≤ next + 1

/-- A block that does not run leaves its field and carry as they are, which is what running it
on an amount of zero gives. -/
theorem carried_skip {n : ℤ} {field : ℕ} (next : ℤ) (hf : (field : ℤ) < n) :
    Carried n 0 field next (field, next) :=
  ⟨hf, by simp, by omega, by omega⟩

/-- A block guarded by its amount: when the guard fails the amount is zero, and the block not
running is the same as running it. -/
theorem carried_guard {n x : ℤ} {field : ℕ} {next : ℤ} {c : Prop} [Decidable c] {r : ℕ × ℤ}
    (hc : ¬c → x = 0) (hf : (field : ℤ) < n) (hr : c → Carried n x field next r) :
    Carried n x field next (if c then r else (field, next)) := by
  split_ifs with h
  · exact hr h
  · rw [hc h]
    exact carried_skip next hf

/-- A value in `[0, n)` stored into a bit-field that holds `n` keeps its value. -/
theorem carried_store {n x : ℤ} {field : ℕ} {next v c : ℤ} (w : ℕ) (hv0 : 0 ≤ v) (hvn : v < n)
    (hnw : n ≤ 2 ^ w) (hsum : v + n * c = x + field + n * next) (hge : next - 1 ≤ c)
    (hle : c ≤ next + 1) : Carried n x field next (bitField w v, c) := by
  have hv : ((bitField w v : ℕ) : ℤ) = v := by
    rw [bitField_of_lt hv0 (by omega), Int.toNat_of_nonneg hv0]
  exact ⟨by dsimp only; omega, by dsimp only; rw [hv]; exact hsum, hge, hle⟩

/-- **The block for seconds or minutes**, on an amount and a field that add up to at least `-n`
and less than `2 * n`: one borrow or one carry, never both, and the store keeps the value. -/
theorem addCarry_spec {n : ℤ} {w : ℕ} (x : ℤ) {field : ℕ} (next : ℤ)
    (hnw : n ≤ 2 ^ w) (hlo : -n ≤ x + field) (hhi : x + field < 2 * n) :
    Carried n x field next (addCarry n w x field next) := by
  by_cases hneg : x + field < 0
  · have hnc : ¬n ≤ x + field + n := by omega
    simp only [addCarry, hneg, if_true, hnc, if_false]
    exact carried_store w (by omega) (by omega) hnw (by ring) (by omega) (by omega)
  · by_cases hcarry : n ≤ x + field
    · simp only [addCarry, hneg, if_false, hcarry, if_true]
      exact carried_store w (by omega) (by omega) hnw (by ring) (by omega) (by omega)
    · simp only [addCarry, hneg, if_false, hcarry]
      exact carried_store w (by omega) (by omega) hnw (by ring) (by omega) (by omega)

/-- **The block for hours** is the block for seconds with unit 24 and no carry before it: the
day it sets is -1, 0 or 1. -/
theorem addHour_spec (x : ℤ) {field : ℕ} (hlo : -24 ≤ x + field) (hhi : x + field < 48) :
    Carried 24 x field 0 (addHour x field) := by
  by_cases hneg : x + field < 0
  · have hnc : ¬(24 : ℤ) ≤ x + field + 24 := by omega
    simp only [addHour, hneg, if_true, hnc, if_false]
    exact carried_store 5 (by omega) (by omega) (by decide) (by ring) (by omega) (by omega)
  · by_cases hcarry : (24 : ℤ) ≤ x + field
    · simp only [addHour, hneg, if_false, hcarry, if_true]
      exact carried_store 5 (by omega) (by omega) (by decide) (by ring) (by omega) (by omega)
    · simp only [addHour, hneg, if_false, hcarry]
      exact carried_store 5 (by omega) (by omega) (by decide) (by ring) (by omega) (by omega)

/-! ## The day -/

/-- A field moved up by one into a bit-field that holds the result. -/
theorem bitField_add_one {w n : ℕ} (h : n + 1 < 2 ^ w) : bitField w ((n : ℤ) + 1) = n + 1 := by
  have h' : (n : ℤ) + 1 < 2 ^ w := by exact_mod_cast h
  rw [bitField_of_lt (by omega) h']
  omega

/-- A field moved down by one, from at least 1. -/
theorem bitField_sub_one {w n : ℕ} (h1 : 1 ≤ n) (h : n < 2 ^ w) :
    bitField w ((n : ℤ) - 1) = n - 1 := by
  have h' : (n : ℤ) - 1 < 2 ^ w := by
    have : (n : ℤ) < 2 ^ w := by exact_mod_cast h
    omega
  rw [bitField_of_lt (by omega) h']
  omega

/-- `leap_year_v_p` is the 4/100/400 rule. -/
theorem leapYearVP_iff (y : ℤ) : leapYearVP y = true ↔ IsLeap y := by
  rw [leapYearVP, modv_eq _ (by decide), leapYearP_iff]
  unfold IsLeap
  omega

/-- The table of the year, at `mon - 1`, is the length of the month. -/
theorem tableAt_daysInMonth (y : ℤ) {m : ℕ} (h1 : 1 ≤ m) (h12 : m ≤ 12) :
    tableAt (if leapYearVP y then leapYearDaysInMonth else commonYearDaysInMonth) ((m : ℤ) - 1) =
      daysInMonth y m := by
  rw [tableAt, if_pos (by omega), show ((m : ℤ) - 1).toNat = m - 1 by omega]
  by_cases hl : IsLeap y
  · rw [if_pos ((leapYearVP_iff y).mpr hl)]
    interval_cases m <;> simp [leapYearDaysInMonth, daysInMonth, hl]
  · rw [if_neg (mt (leapYearVP_iff y).mp hl)]
    interval_cases m <;> simp [commonYearDaysInMonth, daysInMonth, hl]

/-- The `yday` of the last day of a year is its length. -/
theorem yearDays_eq (y : ℤ) : ((if leapYearVP y then 366 else 365 : ℕ) : ℤ) = daysInYear y := by
  by_cases hl : IsLeap y
  · rw [if_pos ((leapYearVP_iff y).mpr hl), daysInYear, if_pos hl]
    rfl
  · rw [if_neg (mt (leapYearVP_iff y).mp hl), daysInYear, if_neg hl]
    rfl

/-- A day of the week stored into `wday`. -/
theorem bitField_emod_seven (x : ℤ) : (bitField 3 (x % 7) : ℤ) = x % 7 := by
  have h0 : 0 ≤ x % 7 := Int.emod_nonneg x (by decide)
  rw [bitField_of_lt h0 (by omega), Int.toNat_of_nonneg h0]

/-- The fields of the time of day and the offset are not moved by a change of day. -/
theorem vtmAddDay_frame (v : VtmQ) (day : ℤ) :
    (vtmAddDay v day).subsecx = v.subsecx ∧ (vtmAddDay v day).utcOffset = v.utcOffset ∧
      (vtmAddDay v day).hour = v.hour ∧ (vtmAddDay v day).min = v.min ∧
      (vtmAddDay v day).sec = v.sec := by
  dsimp only [vtmAddDay]
  split_ifs <;> exact ⟨rfl, rfl, rfl, rfl, rfl⟩

/-- `wday` moves by one day either way, whichever branch the date takes. -/
theorem vtmAddDay_wday (v : VtmQ) (day : ℤ) :
    (vtmAddDay v day).wday =
      if day < 0 then bitField 3 (((v.wday : ℤ) + 6) % 7) else bitField 3 (((v.wday : ℤ) + 1) % 7) := by
  dsimp only [vtmAddDay]
  split_ifs <;> rfl

/-- **One day forward**: the date becomes the next day, and `yday` follows it across a month
end and a year end. -/
theorem vtmAddDay_forward_date {v : VtmQ} (hv : v.DateConsistent) {day : ℤ} (hday : ¬day < 0) :
    ((vtmAddDay v day).year, (vtmAddDay v day).mon, (vtmAddDay v day).mday) =
        nextDay v.year v.mon v.mday ∧
      ((vtmAddDay v day).yday : ℤ) = 1 + (civilDays (vtmAddDay v day).year (vtmAddDay v day).mon
        (vtmAddDay v day).mday - civilDays (vtmAddDay v day).year 1 1) := by
  have hm1 := hv.valid.one_le_mon
  have hm12 := hv.valid.mon_le
  have hd := hv.valid.day_le
  have hdim := daysInMonth_le v.year v.mon
  have hdoy := hv.valid.dayOfYear_lt
  have hyl := daysInYear_le v.year
  have hyd := hv.yday_eq
  have hsub := civilDays_sub_newYear v.year v.mon v.mday
  simp only [vtmAddDay, hday, if_false, tableAt_daysInMonth v.year hm1 hm12]
  split_ifs with hA hB <;> dsimp only
  · -- the last day of the year: the first of January of the next
    obtain ⟨hm, hd31⟩ := hA
    have hnext : nextDay v.year v.mon v.mday = (v.year + 1, 1, 1) := by
      rw [nextDay, hm, hd31, if_neg (by simp [daysInMonth]), if_neg (by decide)]
    exact ⟨hnext.symm, by simp⟩
  · -- the last day of a month before December: the first of the next month
    have hm : v.mon < 12 := by
      by_contra hm
      have h12 : v.mon = 12 := by omega
      rw [h12] at hB
      exact hA ⟨h12, by simp only [daysInMonth] at hB; omega⟩
    have hnext : nextDay v.year v.mon v.mday = (v.year, v.mon + 1, 1) := by
      rw [nextDay, if_neg (by omega), if_pos hm]
    have hsucc := daysBeforeMonth_succ v.year hm1
    rw [bitField_add_one (show v.mon + 1 < 2 ^ 4 by omega),
      bitField_add_one (show v.yday + 1 < 2 ^ 9 by omega)]
    refine ⟨hnext.symm, ?_⟩
    rw [civilDays_sub_newYear]
    push_cast
    omega
  · -- any other day: the next day of the month
    have hnext : nextDay v.year v.mon v.mday = (v.year, v.mon, v.mday + 1) := by
      rw [nextDay, if_pos (by omega)]
    rw [bitField_add_one (show v.mday + 1 < 2 ^ 5 by omega),
      bitField_add_one (show v.yday + 1 < 2 ^ 9 by omega)]
    refine ⟨hnext.symm, ?_⟩
    rw [civilDays_sub_newYear]
    push_cast
    omega

/-- **One day back**: the date becomes the previous day, and `yday` follows it across a month
start and a year start. -/
theorem vtmAddDay_backward_date {v : VtmQ} (hv : v.DateConsistent) {day : ℤ} (hday : day < 0) :
    ((vtmAddDay v day).year, (vtmAddDay v day).mon, (vtmAddDay v day).mday) =
        prevDay v.year v.mon v.mday ∧
      ((vtmAddDay v day).yday : ℤ) = 1 + (civilDays (vtmAddDay v day).year (vtmAddDay v day).mon
        (vtmAddDay v day).mday - civilDays (vtmAddDay v day).year 1 1) := by
  have hm1 := hv.valid.one_le_mon
  have hm12 := hv.valid.mon_le
  have hd1 := hv.valid.one_le_day
  have hd := hv.valid.day_le
  have hdim := daysInMonth_le v.year v.mon
  have hdoy := hv.valid.dayOfYear_lt
  have hyl := daysInYear_le v.year
  have hyd := hv.yday_eq
  have hsub := civilDays_sub_newYear v.year v.mon v.mday
  have hbm := daysBeforeMonth_nonneg v.year v.mon
  simp only [vtmAddDay, hday, if_true]
  by_cases hA : v.mon = 1 ∧ v.mday = 1
  · -- the first of January: the last day of December of the year before
    rw [if_pos hA]
    dsimp only
    obtain ⟨hm, hd1⟩ := hA
    have hprev : prevDay v.year v.mon v.mday = (v.year - 1, 12, 31) := by
      rw [prevDay, hm, hd1, if_neg (by decide), if_neg (by decide)]
    refine ⟨hprev.symm, ?_⟩
    rw [yearDays_eq, civilDays_sub_newYear, ← daysBeforeMonth_twelve]
    push_cast
    omega
  rw [if_neg hA]
  by_cases hB : v.mday = 1
  · -- the first of a later month: the last day of the month before
    rw [if_pos hB]
    dsimp only
    have hm : 1 < v.mon := by
      by_contra hm
      exact hA ⟨by omega, hB⟩
    have hprev : prevDay v.year v.mon v.mday = (v.year, v.mon - 1,
        (daysInMonth v.year (v.mon - 1)).toNat) := by
      rw [prevDay, hB, if_neg (by decide), if_pos hm]
    have hsucc := daysBeforeMonth_succ v.year (show 1 ≤ v.mon - 1 by omega)
    rw [Nat.sub_add_cancel hm1] at hsucc
    have hpos := daysInMonth_pos v.year (v.mon - 1)
    have hle := daysInMonth_le v.year (v.mon - 1)
    rw [bitField_sub_one hm1 (show v.mon < 2 ^ 4 by omega),
      tableAt_daysInMonth v.year (by omega) (by omega),
      bitField_of_lt (Int.le_of_lt hpos) (show daysInMonth v.year (v.mon - 1) < 2 ^ 5 by omega),
      bitField_sub_one (show 1 ≤ v.yday by omega) (show v.yday < 2 ^ 9 by omega)]
    refine ⟨hprev.symm, ?_⟩
    rw [civilDays_sub_newYear]
    omega
  · -- any other day: the day before in the month
    rw [if_neg hB]
    dsimp only
    have hprev : prevDay v.year v.mon v.mday = (v.year, v.mon, v.mday - 1) := by
      rw [prevDay, if_pos (by omega)]
    rw [bitField_sub_one hd1 (show v.mday < 2 ^ 5 by omega),
      bitField_sub_one (show 1 ≤ v.yday by omega) (show v.yday < 2 ^ 9 by omega)]
    refine ⟨hprev.symm, ?_⟩
    rw [civilDays_sub_newYear]
    omega

/-- **A change of day** by one, either way, keeps the date consistent and moves it by that
day. -/
theorem vtmAddDay_spec {v : VtmQ} (hv : v.DateConsistent) {day : ℤ} (hday : day = 1 ∨ day = -1) :
    (vtmAddDay v day).DateConsistent ∧
      civilDays (vtmAddDay v day).year (vtmAddDay v day).mon (vtmAddDay v day).mday =
        civilDays v.year v.mon v.mday + day := by
  have hwd := hv.wday_eq
  unfold weekday at hwd
  rcases hday with rfl | rfl
  · obtain ⟨hdate, hyday⟩ := vtmAddDay_forward_date hv (show ¬(1 : ℤ) < 0 by decide)
    obtain ⟨hnv, hnc⟩ := hv.valid.nextDay
    rw [← hdate] at hnv hnc
    have hwday := vtmAddDay_wday v 1
    rw [if_neg (by decide)] at hwday
    refine ⟨⟨hnv, hyday, ?_⟩, hnc⟩
    rw [hwday, bitField_emod_seven, hnc, weekday]
    omega
  · obtain ⟨hdate, hyday⟩ := vtmAddDay_backward_date hv (show (-1 : ℤ) < 0 by decide)
    obtain ⟨hpv, hpc⟩ := hv.valid.prevDay
    rw [← hdate] at hpv hpc
    have hwday := vtmAddDay_wday v (-1)
    rw [if_pos (by decide)] at hwday
    refine ⟨⟨hpv, hyday, ?_⟩, by rw [hpc]; ring⟩
    rw [hwday, bitField_emod_seven, hpc, weekday]
    omega

/-- The block `if (day)`: with a day of -1, 0 or 1 the date stays consistent and moves by that
day, and the time of day and the offset stay. -/
theorem vtmAddDay_guard_spec {v r : VtmQ} {day : ℤ} (hv : v.DateConsistent) (h0 : -1 ≤ day)
    (h1 : day ≤ 1) (hr : r = if day ≠ 0 then vtmAddDay v day else v) :
    r.DateConsistent ∧ civilDays r.year r.mon r.mday = civilDays v.year v.mon v.mday + day ∧
      r.subsecx = v.subsecx ∧ r.utcOffset = v.utcOffset ∧ r.hour = v.hour ∧ r.min = v.min ∧
      r.sec = v.sec := by
  split_ifs at hr with hday
  · subst hr
    have hone : day = 1 ∨ day = -1 := by omega
    obtain ⟨hc, hd⟩ := vtmAddDay_spec hv hone
    exact ⟨hc, hd, vtmAddDay_frame v day⟩
  · subst hr
    rw [not_not.mp hday, add_zero]
    exact ⟨hv, rfl, rfl, rfl, rfl, rfl, rfl⟩

/-! ## `vtm_add_offset` -/

/-- **`vtm_add_offset` shifts a consistent `vtm` by `off` seconds**: the result is consistent,
its offset is the old one minus `off`, and it denotes the instant `off` seconds later. -/
theorem vtm_add_offset_shifts (v : VtmQ) (hv : v.Consistent) (off : ℚ) (hoff : |off| < 86400) :
    (vtmAddOffset v off).Consistent ∧ (vtmAddOffset v off).utcOffset = v.utcOffset - off ∧
      timegmwNoleapsecondQ (vtmAddOffset v off) = timegmwNoleapsecondQ v + off * timeScale := by
  obtain ⟨hsum, hf0, hf1, hsec0, hsec1, hmin0, hmin1, hh0, hh1⟩ := splitOffset_spec off hoff
  dsimp only [vtmAddOffset]
  set p := splitOffset off
  set s1 := if p.subsec ≠ 0 then addSubsec v.subsecx p.subsec p.sec else (v.subsecx, p.sec)
    with hs1
  set s2 := if p.subsec ≠ 0 ∨ s1.2 ≠ 0 then addCarry 60 6 s1.2 v.sec p.min else (v.sec, p.min)
  set s3 := if s2.2 ≠ 0 then addCarry 60 6 s2.2 v.min p.hour else (v.min, p.hour)
  set s4 := if s3.2 ≠ 0 then addHour s3.2 v.hour else (v.hour, 0)
  -- each block's spec, the amounts staying in range from one block to the next
  have hA : 0 ≤ s1.1 ∧ s1.1 < timeScale ∧
      s1.1 + timeScale * s1.2 = v.subsecx + p.subsec * timeScale + timeScale * p.sec ∧
      p.sec - 1 ≤ s1.2 ∧ s1.2 ≤ p.sec + 1 := by
    rw [hs1]
    split_ifs with h
    · exact addSubsec_spec p.sec hv.subsecx_nonneg hv.subsecx_lt hf0 hf1
    · rw [not_not.mp h]
      exact ⟨hv.subsecx_nonneg, hv.subsecx_lt, by ring, by omega, by omega⟩
  have hsecv := hv.sec_lt
  have hminv := hv.min_lt
  have hhourv := hv.hour_lt
  have hB : Carried 60 s1.2 v.sec p.min s2 :=
    carried_guard (fun h => not_not.mp (not_or.mp h).2) (by omega)
      fun _ => addCarry_spec s1.2 p.min (by norm_num) (by omega) (by omega)
  have hC : Carried 60 s2.2 v.min p.hour s3 :=
    carried_guard not_not.mp (by omega)
      fun _ => addCarry_spec s2.2 p.hour (by norm_num) (by linarith [hB.ge]) (by linarith [hB.le])
  have hD : Carried 24 s3.2 v.hour 0 s4 :=
    carried_guard not_not.mp (by omega)
      fun _ => addHour_spec s3.2 (by linarith [hC.ge]) (by linarith [hC.le])
  -- the day, by the carry out of the hours
  set w : VtmQ := { v with utcOffset := v.utcOffset - off, subsecx := s1.1,
                           sec := s2.1, min := s3.1, hour := s4.1 } with hw
  have hwc : w.DateConsistent := ⟨hv.valid, hv.yday_eq, hv.wday_eq⟩
  obtain ⟨hdate, hdays, hsubx, hutc, hhour, hmin, hsec⟩ := @vtmAddDay_guard_spec w _ s4.2 hwc
    (by linarith [hD.ge]) (by linarith [hD.le]) rfl
  rw [hw] at hsubx hutc hhour hmin hsec hdays
  dsimp only at hsubx hutc hhour hmin hsec hdays
  refine ⟨⟨hdate, ?_, ?_, ?_, ?_, ?_⟩, hutc, ?_⟩
  · rw [hhour]; have := hD.lt; omega
  · rw [hmin]; have := hC.lt; omega
  · rw [hsec]; have := hB.lt; omega
  · rw [hsubx]; exact hA.1
  · rw [hsubx]; exact hA.2.1
  -- the instant: the equations of the blocks add up to the offset
  rw [timegmwNoleapsecondQ_eq _ hdate.valid.one_le_mon hdate.valid.mon_le,
    timegmwNoleapsecondQ_eq v hv.valid.one_le_mon hv.valid.mon_le, hdays, hsubx, hhour, hmin, hsec]
  have hBq := congrArg (fun z : ℤ => (z : ℚ)) hB.sum
  have hCq := congrArg (fun z : ℤ => (z : ℚ)) hC.sum
  have hDq := congrArg (fun z : ℤ => (z : ℚ)) hD.sum
  push_cast at hBq hCq hDq ⊢
  linear_combination hA.2.2.1 + (timeScale : ℚ) * hBq + 60 * (timeScale : ℚ) * hCq +
    3600 * (timeScale : ℚ) * hDq + (timeScale : ℚ) * hsum

/-- One and a half seconds after 2024-12-31 23:59:59.5 UTC is 2025-01-01 00:00:01 UTC: every block
carries, and the date crosses the end of a leap year. -/
theorem vtm_add_offset_shifts_newYear :
    VtmQ.Consistent ⟨2024, 500000000, 0, 366, 12, 31, 23, 59, 59, 2⟩ ∧ |(3 / 2 : ℚ)| < 86400 ∧
      (vtmAddOffset ⟨2024, 500000000, 0, 366, 12, 31, 23, 59, 59, 2⟩ (3 / 2)).Consistent ∧
      (vtmAddOffset ⟨2024, 500000000, 0, 366, 12, 31, 23, 59, 59, 2⟩ (3 / 2)).utcOffset =
        0 - 3 / 2 ∧
      timegmwNoleapsecondQ (vtmAddOffset ⟨2024, 500000000, 0, 366, 12, 31, 23, 59, 59, 2⟩ (3 / 2)) =
        timegmwNoleapsecondQ ⟨2024, 500000000, 0, 366, 12, 31, 23, 59, 59, 2⟩ +
          3 / 2 * timeScale := by
  have hc : VtmQ.Consistent ⟨2024, 500000000, 0, 366, 12, 31, 23, 59, 59, 2⟩ :=
    ⟨⟨by decide, by decide, by decide⟩, by decide, by decide, by decide, by norm_num,
      by norm_num [timeScale]⟩
  have hoff : |(3 / 2 : ℚ)| < 86400 := by norm_num
  exact ⟨hc, hoff, vtm_add_offset_shifts _ hc _ hoff⟩

end CRuby.Time
