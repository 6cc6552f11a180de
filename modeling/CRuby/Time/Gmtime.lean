import Mathlib.Data.Int.Init
import Mathlib.Algebra.Group.Int.Defs

/-!
# `time.c`: UTC broken-down time without leap seconds

A wide time value (`wideval_t`) counts units of `1 / TIME_SCALE` seconds from the epoch; with an
integer value it is an integer here, of any size. Ruby Integers are integers; `divmodv` and
`modv` are `Integer#divmod` and `Integer#%`, which round the quotient down. C `int` and `long`
arithmetic on the small values of these functions is integer arithmetic with C's truncating
`/` and `%` (`Int.tdiv`, `Int.tmod`); the macros `DIV` and `MOD` are `cDiv` and `cMod`.

`struct vtm` keeps its calendar fields in unsigned bit-fields; a store into one keeps the value
modulo `2 ^ width` (`bitField`).

* `timegmwNoleapsecond`: a `vtm` to a wide time value, with `calc_tm_yday` and the SUSv3 formula
  over a 400-year cycle;
* `gmtimewNoleapsecond`: a wide time value to a `vtm`. The days of the 400-year cycle that starts
  on 1970-01-01 are split by `splitCycle`, `splitCentury`, `splitQuad` and `splitYears`, which are
  the segments of the source between its `goto found`s, and the month by `ydayLoop`;
* `timegmNoleapsecond`: a `struct tm` to a `time_t`.

A table is read by `tableAt`; an index outside the table is a C out-of-bounds read, which no valid
`vtm` or `tm` makes and which the model answers with 0.
-/

namespace CRuby.Time

/-- `TIME_SCALE` (timev.h). -/
def timeScale : ℤ := 1000000000

/-- A store of `v` into an unsigned bit-field of `w` bits. -/
def bitField (w : ℕ) (v : ℤ) : ℕ := (v % 2 ^ w).toNat

/-- `struct vtm` (timev.h). `subsecx` and `utc_offset` are integers. -/
structure Vtm where
  year : ℤ
  subsecx : ℤ
  utcOffset : ℤ
  zone : String
  /-- 9 bits -/
  yday : ℕ
  /-- 4 bits -/
  mon : ℕ
  /-- 5 bits -/
  mday : ℕ
  /-- 5 bits -/
  hour : ℕ
  /-- 6 bits -/
  min : ℕ
  /-- 6 bits -/
  sec : ℕ
  /-- 3 bits -/
  wday : ℕ
  /-- 2 bits -/
  isdst : ℕ
  deriving DecidableEq, Repr

/-- The fields of `struct tm` that `timegm_noleapsecond` reads. -/
structure Tm where
  tmSec : ℤ
  tmMin : ℤ
  tmHour : ℤ
  tmMday : ℤ
  tmMon : ℤ
  tmYear : ℤ
  deriving DecidableEq, Repr

/-- `DIV(n, d)`: `NDIV` for a negative `n`. -/
def cDiv (n d : ℤ) : ℤ := if n < 0 then -((-(n + 1)).tdiv d) - 1 else n.tdiv d

/-- `MOD(n, d)`: `NMOD` for a negative `n`. -/
def cMod (n d : ℤ) : ℤ := if n < 0 then d - (-(n + 1)).tmod d - 1 else n.tmod d

/-- `divmodv(n, d, &q, &r)`: `rb_fix_divmod_fix` or `Integer#divmod`. -/
def divmodv (n d : ℤ) : ℤ × ℤ := (n.fdiv d, n.fmod d)

/-- `modv(x, y)`: `rb_fix_mod_fix` or `Integer#%`. -/
def modv (x y : ℤ) : ℤ := x.fmod y

/-- `wdivmod(wn, wd, &wq, &wr)` by its `wdivmod0` fast path (the other path is `divmodv`). -/
def wdivmod (n d : ℤ) : ℤ × ℤ :=
  if d = 1 then (n, 0)
  else if d = -1 then (-n, 0)
  else if n = 0 then (0, 0)
  else
    let q := n.tdiv d
    let r := n.tmod d
    if (if d > 0 then r < 0 else r > 0) then (q - 1, r + d) else (q, r)

/-- `split_second(timew, &timew2, &subsecx)`. -/
def splitSecond (timew : ℤ) : ℤ × ℤ := wdivmod timew timeScale

/-- `leap_year_p(y)`. -/
def leapYearP (y : ℤ) : Bool := y.tmod 4 == 0 && y.tmod 100 != 0 || y.tmod 400 == 0

/-- `common_year_yday_offset`. -/
def commonYearYdayOffset : List ℤ :=
  [-1,
   -1 + 31,
   -1 + 31 + 28,
   -1 + 31 + 28 + 31,
   -1 + 31 + 28 + 31 + 30,
   -1 + 31 + 28 + 31 + 30 + 31,
   -1 + 31 + 28 + 31 + 30 + 31 + 30,
   -1 + 31 + 28 + 31 + 30 + 31 + 30 + 31,
   -1 + 31 + 28 + 31 + 30 + 31 + 30 + 31 + 31,
   -1 + 31 + 28 + 31 + 30 + 31 + 30 + 31 + 31 + 30,
   -1 + 31 + 28 + 31 + 30 + 31 + 30 + 31 + 31 + 30 + 31,
   -1 + 31 + 28 + 31 + 30 + 31 + 30 + 31 + 31 + 30 + 31 + 30]

/-- `leap_year_yday_offset`. -/
def leapYearYdayOffset : List ℤ :=
  [-1,
   -1 + 31,
   -1 + 31 + 29,
   -1 + 31 + 29 + 31,
   -1 + 31 + 29 + 31 + 30,
   -1 + 31 + 29 + 31 + 30 + 31,
   -1 + 31 + 29 + 31 + 30 + 31 + 30,
   -1 + 31 + 29 + 31 + 30 + 31 + 30 + 31,
   -1 + 31 + 29 + 31 + 30 + 31 + 30 + 31 + 31,
   -1 + 31 + 29 + 31 + 30 + 31 + 30 + 31 + 31 + 30,
   -1 + 31 + 29 + 31 + 30 + 31 + 30 + 31 + 31 + 30 + 31,
   -1 + 31 + 29 + 31 + 30 + 31 + 30 + 31 + 31 + 30 + 31 + 30]

/-- `table[i]`. -/
def tableAt (table : List ℤ) (i : ℤ) : ℤ := if 0 ≤ i then table.getD i.toNat 0 else 0

/-- `calc_tm_yday(tm_year, tm_mon, tm_mday)`: the day of the year, from 0. -/
def calcTmYday (tmYear tmMon tmMday : ℤ) : ℤ :=
  let tmYearMod400 := cMod tmYear 400
  let tmYday := tmMday
  if leapYearP (tmYearMod400 + 1900) then tmYday + tableAt leapYearYdayOffset tmMon
  else tmYday + tableAt commonYearYdayOffset tmMon

/-- `timegmw_noleapsecond(vtm)`. -/
def timegmwNoleapsecond (vtm : Vtm) : ℤ :=
  let year1900 := vtm.year - 1900
  let q400 := (divmodv year1900 400).1
  let yearMod400 := (divmodv year1900 400).2
  let yday := calcTmYday yearMod400 (vtm.mon - 1) vtm.mday
  let ret : ℤ := vtm.sec + vtm.min * 60 + vtm.hour * 3600
  let daysIn400 := yday - 70 * 365 + cDiv (yearMod400 - 69) 4 - cDiv (yearMod400 - 1) 100 +
    (yearMod400 + 299).tdiv 400
  let vdays := daysIn400 + q400 * 97 + year1900 * 365
  ret * timeScale + vdays * timeScale * 86400 + vtm.subsecx

/-! ## `gmtimew_noleapsecond` -/

/-- `x = n / 365; n = n % 365; y += x;` -/
def splitYears (n y : ℤ) : ℤ × ℤ := (y + n.tdiv 365, n.tmod 365)

/-- From `x = n / (365*4 + 1);`: the four years from `y`, whose third is a leap year. -/
def splitQuad (n y : ℤ) : ℤ × ℤ :=
  let x := n.tdiv (365 * 4 + 1)
  let n := n.tmod (365 * 4 + 1)
  let y := y + x * 4
  if 365 * 2 + 31 + 29 - 1 ≤ n then
    if n < 365 * 2 + 366 then (y + 2, n - 365 * 2)
    else splitYears (n - 1) y
  else splitYears n y

/-- From `x = n / (365*100 + 24);`: the hundred years from `y`, whose thirty-first is a
century year. -/
def splitCentury (n y : ℤ) : ℤ × ℤ :=
  let x := n.tdiv (365 * 100 + 24)
  let n := n.tmod (365 * 100 + 24)
  let y := y + x * 100
  if 30 * 365 + 7 + 31 + 29 - 1 ≤ n then
    if n < 31 * 365 + 7 then (y + 30, n - (30 * 365 + 7))
    else splitQuad (n + 1) y
  else splitQuad n y

/-- The day `n` of the 400-year cycle from 1970-01-01 to the year and its day, from 0. -/
def splitCycle (n : ℤ) : ℤ × ℤ :=
  let y : ℤ := 1970
  if 30 * 365 + 7 + 31 + 29 - 1 ≤ n then
    if n < 31 * 365 + 8 then (y + 30, n - (30 * 365 + 7))
    else splitCentury (n - 1) y
  else splitCentury n y

/-- `for (i = 0; i < 12; i++) if (yday_offset[i] < n) { mon = i+1; mday = n - yday_offset[i]; }
else break;` from the entry `i` of the table on. -/
def ydayLoop (n : ℤ) : List ℤ → ℕ → ℕ × ℕ → ℕ × ℕ
  | [], _, monMday => monMday
  | off :: rest, i, monMday =>
    if off < n then ydayLoop n rest (i + 1) (bitField 4 (i + 1), bitField 5 (n - off))
    else monMday

/-- `gmtimew_noleapsecond(timew, vtm)`. -/
def gmtimewNoleapsecond (timew : ℤ) (vtm : Vtm) : Vtm :=
  let timew2 := (splitSecond timew).1
  let subsecx := (splitSecond timew).2
  let timev := (wdivmod timew2 86400).1
  let v := (wdivmod timew2 86400).2
  let wday := modv timev 7
  let n := v
  let sec := n.tmod 60
  let n := n.tdiv 60
  let min := n.tmod 60
  let n := n.tdiv 60
  let hour := n
  -- 97 leap days in the 400 year cycle
  let year := (divmodv timev (400 * 365 + 97)).1 * 400
  let n := (divmodv timev (400 * 365 + 97)).2
  let y := (splitCycle n).1
  let n := (splitCycle n).2
  let ydayOffset := if leapYearP y then leapYearYdayOffset else commonYearYdayOffset
  let monMday := ydayLoop n ydayOffset 0 (vtm.mon, vtm.mday)
  { vtm with
    isdst := 0
    subsecx := subsecx
    wday := bitField 3 ((wday + 4).tmod 7)
    sec := bitField 6 sec
    min := bitField 6 min
    hour := bitField 5 hour
    yday := bitField 9 (n + 1)
    year := year + y
    mon := monMday.1
    mday := monMday.2
    utcOffset := 0
    zone := "UTC" }

/-- `timegm_noleapsecond(tm)`. -/
def timegmNoleapsecond (tm : Tm) : ℤ :=
  let tmYear := tm.tmYear
  let tmYday := tm.tmMday
  let tmYday := if leapYearP (tmYear + 1900) then tmYday + tableAt leapYearYdayOffset tm.tmMon
    else tmYday + tableAt commonYearYdayOffset tm.tmMon
  tm.tmSec + tm.tmMin * 60 + tm.tmHour * 3600 +
    (tmYday + (tmYear - 70) * 365 + cDiv (tmYear - 69) 4 - cDiv (tmYear - 1) 100 +
      cDiv (tmYear + 299) 400) * 86400

end CRuby.Time
