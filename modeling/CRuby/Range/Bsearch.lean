import Mathlib.Data.Nat.Log
import CRuby.Lib.Binary64Bits
import CRuby.Num.FloatCmp

/-!
# `Range#bsearch`

`range_bsearch` (range.c) runs one loop, the macro `BSEARCH`, over an interval of integers:
the endpoints themselves when both are Fixnums, the 64-bit patterns of the doubles when one is a
Float, and Integers of any size otherwise. Each turn yields `conv(mid)` to the block, and
`BSEARCH_CHECK` reads the answer: zero returns the value at once, `true` keeps it as `satisfied`
and searches below, `false` or `nil` search above, a number searches by its sign.

The model is the loop over `ℤ` with the midpoint `mid` and the reading `check` of the block's
answer as parameters (`bsearchLoop`), and `rangeBsearch`, which picks the three instances.

* `bsMid`, the expression for `mid` in `BSEARCH`, is the mean rounded down (`bsMid_eq`) and its
  steps stay within `long` (`bsMidTerms_mem`), as does the Integer path's `(high + low).div(2)`.
* Whatever the block answers, the loop yields only values of the interval, ends within
  `⌈log₂ n⌉` turns on `n` values and yields at most `⌈log₂ n⌉ + 1` times
  (`bsearch_yielded_mem`, `bsearch_isSome`, `bsearch_yielded_length`).
* Over the interval, a block true from some point on gives the least value where it is true
  (`bsearch_findMin`), and a block that is positive, then zero, then negative gives a value where
  it is zero whenever there is one (`bsearch_findAny`). On Integer endpoints the interval is the
  range's elements (`rangeBsearch_int_findMin`, `rangeBsearch_int_findAny`).
* With a Float and an Integer endpoint, the Integer is first rounded to a double by `rb_Float`,
  so the interval searched can start below the range: `(2**54 + 5 .. 2.0**60).bsearch { true }`
  returns `2.0**54 + 4`, which the range does not cover.
-/

namespace CRuby.Range

open CRuby.Num

/-! ## The block's answer -/

/-- What the block returned, as `BSEARCH_CHECK` tells the cases apart: a Fixnum, `true`,
`false`, `nil`, another Numeric (by the sign `rb_cmpint` reads from its `<=> 0`), or an object of
another class (by its class name). -/
inductive BlockAnswer where
  | fixnum (v : ℤ)
  | qtrue
  | qfalse
  | qnil
  | numeric (cmp : ℤ)
  | other (cls : String)
  deriving DecidableEq, Repr

/-- What `BSEARCH_CHECK` makes of an answer: return the value yielded at once, or go on with
`smaller` set and, when the block was true, the value kept as `satisfied`. -/
inductive Check where
  | found
  | go (smaller satisfied : Bool)
  deriving DecidableEq, Repr

/-- The `TypeError` raised for an answer of another class. -/
def wrongArgumentType (cls : String) : String :=
  "wrong argument type " ++ cls ++ " (must be numeric, true, false or nil)"

/-- `BSEARCH_CHECK` on the block's answer. -/
def bsearchCheck : BlockAnswer → Except String Check
  | .fixnum v => if v = 0 then .ok .found else .ok (.go (decide (v < 0)) false)
  | .qtrue => .ok (.go true true)
  | .qfalse => .ok (.go false false)
  | .qnil => .ok (.go false false)
  | .numeric cmp => if cmp = 0 then .ok .found else .ok (.go (decide (cmp < 0)) false)
  | .other cls => .error (wrongArgumentType cls)

/-! ## The loop `BSEARCH` -/

/-- The variables of `BSEARCH`: the bounds, the value kept as `satisfied`, and the values yielded
so far, the last first. Values are the integers the search runs over. -/
structure BsState where
  low : ℤ
  high : ℤ
  satisfied : Option ℤ
  yielded : List ℤ

/-- How a search ends: what it returns, or the error it raises, and the values it yielded, the
last first. -/
structure BsRun (α : Type) where
  result : Except String (Option α)
  yielded : List α

/-- A run over the integers, read as Ruby values through `conv`. -/
def BsRun.map {α β : Type} (f : α → β) (r : BsRun α) : BsRun β :=
  ⟨r.result.map (Option.map f), r.yielded.map f⟩

/-- The state after yielding `mid` and going on: the half kept, and `satisfied` moved to `mid`
when the block was true. -/
def BsState.probe (s : BsState) (mid : ℤ) (smaller sat : Bool) : BsState where
  low := if smaller then s.low else mid + 1
  high := if smaller then mid else s.high
  satisfied := if sat then some mid else s.satisfied
  yielded := mid :: s.yielded

section Loop

variable (mid : ℤ → ℤ → ℤ) (check : ℤ → Except String Check) (orgHigh : ℤ)

/-- One turn of `while (low < high)`: `BSEARCH_CHECK(conv(mid))`, which may end the search. -/
def bsearchStep (s : BsState) : BsState ⊕ BsRun ℤ :=
  let m := mid s.low s.high
  match check m with
  | .error e => .inr ⟨.error e, m :: s.yielded⟩
  | .ok .found => .inr ⟨.ok (some m), m :: s.yielded⟩
  | .ok (.go smaller sat) => .inl (s.probe m smaller sat)

/-- After the loop: when `low == org_high`, `BSEARCH_CHECK(conv(low))` and `nil` unless
`smaller`; then `satisfied`. -/
def bsearchFinal (s : BsState) : BsRun ℤ :=
  if s.low = orgHigh then
    match check s.low with
    | .error e => ⟨.error e, s.low :: s.yielded⟩
    | .ok .found => ⟨.ok (some s.low), s.low :: s.yielded⟩
    | .ok (.go smaller sat) =>
      ⟨.ok (if smaller then (if sat then some s.low else s.satisfied) else none),
        s.low :: s.yielded⟩
  else ⟨.ok s.satisfied, s.yielded⟩

/-- The loop of `BSEARCH` and what follows it, within `fuel` turns. -/
def bsearchLoop : ℕ → BsState → Option (BsRun ℤ)
  | 0, s => if s.low < s.high then none else some (bsearchFinal check orgHigh s)
  | fuel + 1, s =>
    if s.low < s.high then
      match bsearchStep mid check s with
      | .inl s' => bsearchLoop fuel s'
      | .inr r => some r
    else some (bsearchFinal check orgHigh s)

end Loop

/-- `org_high`: the last value searched, after `high--` when the range excludes its end. -/
def orgHighOf (excl : Bool) (high : ℤ) : ℤ := if excl then high - 1 else high

/-- `BSEARCH(conv)` from `low` to `high`, with `check` the reading of the block's answer at
`conv` of a value. -/
def bsearch (mid : ℤ → ℤ → ℤ) (check : ℤ → Except String Check) (excl : Bool) (low high : ℤ)
    (fuel : ℕ) : Option (BsRun ℤ) :=
  bsearchLoop mid check (orgHighOf excl high) fuel ⟨low, orgHighOf excl high, none, []⟩

/-- `mid` in `BSEARCH`: the mean of `low` and `high` without overflow, by C's division, which
rounds towards zero. -/
def bsMid (low high : ℤ) : ℤ :=
  if decide (high < 0) = decide (low < 0) then low + (high - low).tdiv 2
  else if low < -high then -((-1 - low - high).tdiv 2 + 1)
  else (low + high).tdiv 2

/-- The values the expression for `mid` computes on the way, on the branch it takes. -/
def bsMidTerms (low high : ℤ) : List ℤ :=
  if decide (high < 0) = decide (low < 0) then
    [high - low, (high - low).tdiv 2, low + (high - low).tdiv 2]
  else if low < -high then
    [-high, -1 - low, -1 - low - high, (-1 - low - high).tdiv 2, (-1 - low - high).tdiv 2 + 1,
      -((-1 - low - high).tdiv 2 + 1)]
  else [low + high, (low + high).tdiv 2]

/-- `mid` on the Integer path: `(high + low).div(2)`; `Integer#div` rounds down, as `/` on `ℤ`
does for a positive divisor. -/
def intMid (low high : ℤ) : ℤ := (high + low) / 2

/-! ## The three paths of `range_bsearch` -/

/-- A range endpoint, and a value the search yields: an Integer or a Float. -/
inductive RNum where
  | int (n : ℤ)
  | float (d : Double)
  deriving DecidableEq, Repr

/-- `-d` on a double: the sign bit flipped. -/
def negDouble : Double → Double
  | .finite x => .finite (-x)
  | .inf neg => .inf (!neg)
  | .nan => .nan

/-- The double whose 63 bits below the sign are `b`. -/
def ofMagBits (b : ℕ) : Double :=
  if b / 2 ^ 52 < 2047 then .finite (Binary64.magValue b)
  else if b % 2 ^ 52 = 0 then .inf false else .nan

/-- `double_as_int64`: the bits of `fabs(d)`, negated when `d < 0`. `-0.0` and `0.0` both give
`0`; a NaN is not below zero, and is taken with the bits of the default quiet NaN. -/
def doubleAsInt64 : Double → ℤ
  | .finite x => if x < 0 then -(Binary64.magBits (-x) : ℤ) else Binary64.magBits x
  | .inf neg => if neg then -(Binary64.infBits : ℤ) else Binary64.infBits
  | .nan => Binary64.infBits + 2 ^ 51

/-- `int64_as_double_to_num`: the double whose bits are `|i|`, negated when `i < 0`. -/
def int64AsDoubleToNum (i : ℤ) : RNum :=
  if i < 0 then .float (negDouble (ofMagBits (-i).toNat)) else .float (ofMagBits i.toNat)

/-- `rb_Float` of an endpoint: a Fixnum by C's `(double)`, which gives the nearest double; a
Bignum by `rb_big2dbl`, which the model takes as given. -/
def rbFloat (big2dbl : ℤ → Double) : RNum → Double
  | .int n => if fixableP n then .finite (Binary64.round n) else big2dbl n
  | .float d => d

/-- `range_bsearch` on the range from `b` to `e` (`b...e` when `excl`) with the block `block`,
within `fuel` turns of its loop: both Fixnums, then a Float among them, then Integers. -/
def rangeBsearch (big2dbl : ℤ → Double) (block : RNum → BlockAnswer) (b e : RNum) (excl : Bool)
    (fuel : ℕ) : Option (BsRun RNum) :=
  match b, e with
  | .int low, .int high =>
    if fixableP low && fixableP high then
      (bsearch bsMid (fun i => bsearchCheck (block (.int i))) excl low high fuel).map
        (BsRun.map .int)
    else
      (bsearch intMid (fun i => bsearchCheck (block (.int i))) excl low high fuel).map
        (BsRun.map .int)
  | _, _ =>
    (bsearch bsMid (fun i => bsearchCheck (block (int64AsDoubleToNum i))) excl
      (doubleAsInt64 (rbFloat big2dbl b)) (doubleAsInt64 (rbFloat big2dbl e)) fuel).map
      (BsRun.map int64AsDoubleToNum)

/-! ## Which values a range covers -/

/-- `flo_cmp` of two doubles through `rb_dbl_cmp`: `nil` when one is a NaN. -/
def floatCmp : Double → Double → Option ℤ
  | .nan, _ => none
  | _, .nan => none
  | .inf n, .inf m => some (if n = m then 0 else if n then -1 else 1)
  | .inf n, .finite _ => some (if n then -1 else 1)
  | .finite _, .inf m => some (if m then 1 else -1)
  | .finite x, .finite y => some (SignType.sign (x - y))

/-- `<=>` of two numbers: of Integers, of an Integer and a Float by `rb_integer_float_cmp`
(here its meaning, `integerFloatCmp`), and of Floats. -/
def RNum.cmp : RNum → RNum → Option ℤ
  | .int a, .int b => some (a - b).sign
  | .int a, .float d => integerFloatCmp a d
  | .float d, .int b => (integerFloatCmp b d).map (- ·)
  | .float d, .float d' => floatCmp d d'

/-- `INT_MAX`. -/
def intMax : ℤ := 2 ^ 31 - 1

/-- `r_less`: `a <=> b`, and `INT_MAX` when they do not compare. -/
def rLess (a b : RNum) : ℤ := (a.cmp b).getD intMax

/-- `r_cover_p`: the range from `b` to `e` covers `val`. It is also `Range#include?` on numeric
endpoints. -/
def rCoverP (excl : Bool) (b e val : RNum) : Bool :=
  decide (rLess b val ≤ 0) && decide (rLess val e ≤ -(if excl then 1 else 0))

/-! ## The midpoint -/

/-- **`mid` is the mean rounded down**: on each branch C's division divides a value that is not
negative, where it rounds down too. -/
theorem bsMid_eq {low high : ℤ} (h : low < high) : bsMid low high = (low + high) / 2 := by
  unfold bsMid
  simp only [decide_eq_decide]
  split_ifs with hsign hneg
  · rw [Int.tdiv_eq_ediv_of_nonneg (by omega)]
    omega
  · rw [Int.tdiv_eq_ediv_of_nonneg (by omega)]
    omega
  · rw [Int.tdiv_eq_ediv_of_nonneg (by omega)]

theorem intMid_eq (low high : ℤ) : intMid low high = (low + high) / 2 := by
  rw [intMid, add_comm]

/-- **`mid` does not overflow**: between bounds within `long`, every value the expression
computes is within `long`. -/
theorem bsMidTerms_mem {low high : ℤ} (h : low < high) (hlow : longMin ≤ low)
    (hhigh : high ≤ longMax) : ∀ t ∈ bsMidTerms low high, longMin ≤ t ∧ t ≤ longMax := by
  simp only [longMin, longMax] at hlow hhigh ⊢
  unfold bsMidTerms
  simp only [decide_eq_decide]
  split_ifs with hsign hneg
  · -- same signs: `high - low` is positive and below `2 ^ 63`
    rw [Int.tdiv_eq_ediv_of_nonneg (by omega)]
    simp only [List.mem_cons, List.not_mem_nil, or_false]
    rintro t (rfl | rfl | rfl) <;> omega
  · -- `low < 0 ≤ high` with a negative sum: `-1 - low` is at most `2 ^ 63 - 1`
    rw [Int.tdiv_eq_ediv_of_nonneg (by omega)]
    simp only [List.mem_cons, List.not_mem_nil, or_false]
    rintro t (rfl | rfl | rfl | rfl | rfl | rfl) <;> omega
  · -- `low < 0 ≤ high` with a sum that is not negative
    rw [Int.tdiv_eq_ediv_of_nonneg (by omega)]
    simp only [List.mem_cons, List.not_mem_nil, or_false]
    rintro t (rfl | rfl) <;> omega

/-! ## One turn, and the end of the loop -/

section Loop

variable {mid : ℤ → ℤ → ℤ} {check : ℤ → Except String Check} {orgHigh : ℤ} {s s' : BsState}

@[simp] theorem BsState.probe_yielded (m : ℤ) (smaller sat : Bool) :
    (s.probe m smaller sat).yielded = m :: s.yielded := rfl

theorem bsearchStep_go {smaller sat : Bool}
    (h : check (mid s.low s.high) = .ok (.go smaller sat)) :
    bsearchStep mid check s = .inl (s.probe (mid s.low s.high) smaller sat) := by
  simp only [bsearchStep, h]

theorem bsearchStep_found (h : check (mid s.low s.high) = .ok .found) :
    bsearchStep mid check s =
      .inr ⟨.ok (some (mid s.low s.high)), mid s.low s.high :: s.yielded⟩ := by
  simp only [bsearchStep, h]

/-- A turn that goes on yields `mid` and keeps one half. -/
theorem bsearchStep_inl (h : bsearchStep mid check s = .inl s') :
    ∃ smaller sat, s' = s.probe (mid s.low s.high) smaller sat := by
  simp only [bsearchStep] at h
  split at h
  · cases h
  · cases h
  · cases h
    exact ⟨_, _, rfl⟩

/-- A turn that ends the search yields `mid`. -/
theorem bsearchStep_inr {r : BsRun ℤ} (h : bsearchStep mid check s = .inr r) :
    r.yielded = mid s.low s.high :: s.yielded := by
  simp only [bsearchStep] at h
  split at h <;> cases h <;> rfl

theorem bsearchFinal_of_ne (h : s.low ≠ orgHigh) :
    bsearchFinal check orgHigh s = ⟨.ok s.satisfied, s.yielded⟩ := by
  simp only [bsearchFinal, h, if_false]

theorem bsearchFinal_go {smaller sat : Bool} (h : s.low = orgHigh)
    (hc : check s.low = .ok (.go smaller sat)) :
    bsearchFinal check orgHigh s =
      ⟨.ok (if smaller then (if sat then some s.low else s.satisfied) else none),
        s.low :: s.yielded⟩ := by
  rw [bsearchFinal, if_pos h, hc]

theorem bsearchFinal_found (h : s.low = orgHigh) (hc : check s.low = .ok .found) :
    bsearchFinal check orgHigh s = ⟨.ok (some s.low), s.low :: s.yielded⟩ := by
  rw [bsearchFinal, if_pos h, hc]

/-- After the loop the search yields `low` once more, or not at all. -/
theorem bsearchFinal_yielded :
    (bsearchFinal check orgHigh s).yielded =
      if s.low = orgHigh then s.low :: s.yielded else s.yielded := by
  unfold bsearchFinal
  split_ifs
  · split <;> rfl
  · rfl

theorem bsearchLoop_of_not_lt (fuel : ℕ) (h : ¬s.low < s.high) :
    bsearchLoop mid check orgHigh fuel s = some (bsearchFinal check orgHigh s) := by
  cases fuel <;> simp only [bsearchLoop, h, if_false]

theorem bsearchLoop_zero_of_lt (h : s.low < s.high) : bsearchLoop mid check orgHigh 0 s = none := by
  simp only [bsearchLoop, h, if_true]

theorem bsearchLoop_succ_of_inl (fuel : ℕ) (h : s.low < s.high)
    (hs : bsearchStep mid check s = .inl s') :
    bsearchLoop mid check orgHigh (fuel + 1) s = bsearchLoop mid check orgHigh fuel s' := by
  simp only [bsearchLoop, h, if_true, hs]

theorem bsearchLoop_succ_of_inr (fuel : ℕ) {r : BsRun ℤ} (h : s.low < s.high)
    (hs : bsearchStep mid check s = .inr r) :
    bsearchLoop mid check orgHigh (fuel + 1) s = some r := by
  simp only [bsearchLoop, h, if_true, hs]

/-! ## Runs of the loop -/

/-- **The invariant rule of the loop**: a property of the state that every turn keeps or turns
into a property of the run it ends, and that gives the property of the run after the loop,
holds of every run. -/
theorem bsearchLoop_rule (P : BsState → Prop) (Q : BsRun ℤ → Prop)
    (hstep : ∀ s, P s → s.low < s.high → Sum.elim P Q (bsearchStep mid check s))
    (hfinal : ∀ s, P s → ¬s.low < s.high → Q (bsearchFinal check orgHigh s)) :
    ∀ fuel s r, P s → bsearchLoop mid check orgHigh fuel s = some r → Q r := by
  intro fuel
  induction fuel with
  | zero =>
    intro s r hs hrun
    by_cases h : s.low < s.high
    · rw [bsearchLoop_zero_of_lt h] at hrun
      cases hrun
    · rw [bsearchLoop_of_not_lt 0 h, Option.some.injEq] at hrun
      exact hrun ▸ hfinal s hs h
  | succ fuel ih =>
    intro s r hs hrun
    by_cases h : s.low < s.high
    · have hnext := hstep s hs h
      rcases hst : bsearchStep mid check s with s' | r'
      · rw [bsearchLoop_succ_of_inl fuel h hst] at hrun
        rw [hst] at hnext
        exact ih s' r hnext hrun
      · rw [bsearchLoop_succ_of_inr fuel h hst, Option.some.injEq] at hrun
        rw [hst] at hnext
        exact hrun ▸ hnext
    · rw [bsearchLoop_of_not_lt _ h, Option.some.injEq] at hrun
      exact hrun ▸ hfinal s hs h

/-- More fuel gives the same run. -/
theorem bsearchLoop_mono :
    ∀ k k' s r, k ≤ k' → bsearchLoop mid check orgHigh k s = some r →
      bsearchLoop mid check orgHigh k' s = some r := by
  intro k
  induction k with
  | zero =>
    intro k' s r _ hrun
    by_cases h : s.low < s.high
    · rw [bsearchLoop_zero_of_lt h] at hrun
      cases hrun
    · rwa [bsearchLoop_of_not_lt _ h] at hrun ⊢
  | succ k ih =>
    intro k' s r hk hrun
    obtain ⟨k', rfl⟩ : ∃ j, k' = j + 1 := ⟨k' - 1, by omega⟩
    by_cases h : s.low < s.high
    · rcases hst : bsearchStep mid check s with s' | r'
      · rw [bsearchLoop_succ_of_inl _ h hst] at hrun ⊢
        exact ih k' s' r (by omega) hrun
      · rwa [bsearchLoop_succ_of_inr _ h hst] at hrun ⊢
    · rwa [bsearchLoop_of_not_lt _ h] at hrun ⊢

/-- Each turn yields once, and so may the end of the loop. -/
theorem bsearchLoop_yielded_length :
    ∀ k s r, bsearchLoop mid check orgHigh k s = some r →
      r.yielded.length ≤ s.yielded.length + k + 1 := by
  intro k
  induction k with
  | zero =>
    intro s r hrun
    by_cases h : s.low < s.high
    · rw [bsearchLoop_zero_of_lt h] at hrun
      cases hrun
    · rw [bsearchLoop_of_not_lt 0 h, Option.some.injEq] at hrun
      subst hrun
      rw [bsearchFinal_yielded]
      split_ifs
      · rw [List.length_cons]
      · omega
  | succ k ih =>
    intro s r hrun
    by_cases h : s.low < s.high
    · rcases hst : bsearchStep mid check s with s' | r'
      · rw [bsearchLoop_succ_of_inl k h hst] at hrun
        obtain ⟨smaller, sat, rfl⟩ := bsearchStep_inl hst
        have := ih _ r hrun
        simp only [BsState.probe_yielded, List.length_cons] at this
        omega
      · rw [bsearchLoop_succ_of_inr k h hst, Option.some.injEq] at hrun
        rw [← hrun, bsearchStep_inr hst, List.length_cons]
        omega
    · rw [bsearchLoop_of_not_lt _ h, Option.some.injEq] at hrun
      rw [← hrun, bsearchFinal_yielded]
      split_ifs
      · rw [List.length_cons]
        omega
      · omega

section Mean

variable (hmid : ∀ lo hi, lo < hi → mid lo hi = (lo + hi) / 2)
include hmid

/-- A turn that goes on keeps at most half the interval: `mid` is the mean rounded down. -/
theorem bsearchStep_halves (h : s.low < s.high) (hs : bsearchStep mid check s = .inl s') :
    s'.high - s'.low ≤ (s.high - s.low) / 2 := by
  obtain ⟨smaller, sat, rfl⟩ := bsearchStep_inl hs
  have hm := hmid s.low s.high h
  cases smaller <;> simp only [BsState.probe, Bool.false_eq_true, if_false, if_true] <;> omega

/-- **The loop ends within `k` turns on an interval of fewer than `2 ^ k + 1` values.** -/
theorem bsearchLoop_isSome :
    ∀ k s, s.high - s.low < 2 ^ k → (bsearchLoop mid check orgHigh k s).isSome := by
  intro k
  induction k with
  | zero =>
    intro s hs
    rw [bsearchLoop_of_not_lt 0 (by rw [pow_zero] at hs; omega)]
    rfl
  | succ k ih =>
    intro s hs
    by_cases h : s.low < s.high
    · rcases hst : bsearchStep mid check s with s' | r
      · rw [bsearchLoop_succ_of_inl k h hst]
        apply ih s'
        have := bsearchStep_halves hmid h hst
        rw [pow_succ] at hs
        omega
      · rw [bsearchLoop_succ_of_inr k h hst]
        rfl
    · rw [bsearchLoop_of_not_lt _ h]
      rfl

/-- `mid` lies in the interval a turn starts from. -/
theorem mid_mem (h : s.low < s.high) : s.low ≤ mid s.low s.high ∧ mid s.low s.high < s.high := by
  rw [hmid _ _ h]
  omega

/-- The loop yields only values between `lo` and `org_high`. -/
theorem bsearchLoop_yielded_mem (lo : ℤ) :
    ∀ fuel s r, (lo ≤ s.low ∧ s.high ≤ orgHigh ∧ ∀ y ∈ s.yielded, lo ≤ y ∧ y ≤ orgHigh) →
      bsearchLoop mid check orgHigh fuel s = some r → ∀ y ∈ r.yielded, lo ≤ y ∧ y ≤ orgHigh := by
  refine bsearchLoop_rule _ _ (fun s ⟨hlo, hhi, hys⟩ h => ?_) (fun s ⟨hlo, hhi, hys⟩ h => ?_)
  · have hm := mid_mem hmid h
    rcases hst : bsearchStep mid check s with s' | r
    · rw [Sum.elim_inl]
      obtain ⟨smaller, sat, rfl⟩ := bsearchStep_inl hst
      refine ⟨?_, ?_, ?_⟩
      · cases smaller <;> simp only [BsState.probe, Bool.false_eq_true, if_false, if_true] <;> omega
      · cases smaller <;> simp only [BsState.probe, Bool.false_eq_true, if_false, if_true] <;> omega
      · simp only [BsState.probe_yielded, List.mem_cons, forall_eq_or_imp]
        exact ⟨by omega, hys⟩
    · rw [Sum.elim_inr, bsearchStep_inr hst]
      simp only [List.mem_cons, forall_eq_or_imp]
      exact ⟨by omega, hys⟩
  · rw [bsearchFinal_yielded]
    split_ifs with heq
    · simp only [List.mem_cons, forall_eq_or_imp]
      exact ⟨by omega, hys⟩
    · exact hys

end Mean

end Loop

/-! ## The two modes -/

/-- What find-minimum mode returns on the values `lo..hi` where the block is true at `p`: the
least value where it is true, and `nil` when there is none. -/
def MinSpec (lo hi : ℤ) (p : ℤ → Bool) : Option ℤ → Prop
  | none => ∀ i, lo ≤ i → i ≤ hi → p i = false
  | some m => lo ≤ m ∧ m ≤ hi ∧ p m = true ∧ ∀ j, lo ≤ j → j < m → p j = false

/-- What find-any mode returns on the values `lo..hi` where the block's sign is `c`: a value where
it is zero, and `nil` when there is none. -/
def AnySpec (lo hi : ℤ) (c : ℤ → ℤ) : Option ℤ → Prop
  | none => ∀ i, lo ≤ i → i ≤ hi → c i ≠ 0
  | some m => lo ≤ m ∧ m ≤ hi ∧ c m = 0

section Modes

variable {mid : ℤ → ℤ → ℤ} {check : ℤ → Except String Check} {lo orgHigh : ℤ}
  (hmid : ∀ lo hi, lo < hi → mid lo hi = (lo + hi) / 2)

/-- The find-minimum invariant: the values below `low` are false, and `high` is `org_high` with
nothing kept, or a true value kept as `satisfied`. -/
def MinInv (lo orgHigh : ℤ) (p : ℤ → Bool) (s : BsState) : Prop :=
  lo ≤ s.low ∧ s.high ≤ orgHigh ∧ (∀ j, lo ≤ j → j < s.low → p j = false) ∧
    ((s.satisfied = none ∧ s.high = orgHigh) ∨
      (s.satisfied = some s.high ∧ lo ≤ s.high ∧ p s.high = true))

section FindMin

variable {p : ℤ → Bool}
  (hcheck : ∀ i, lo ≤ i → i ≤ orgHigh → check i = .ok (.go (p i) (p i)))
  (hmono : ∀ i j, lo ≤ i → i ≤ j → j ≤ orgHigh → p i = true → p j = true)
include hmid hcheck hmono

/-- A turn keeps the find-minimum invariant: a true `mid` becomes `high` and is kept, and a false
one has only false values below it. -/
theorem minInv_step {s : BsState} (hs : MinInv lo orgHigh p s) (h : s.low < s.high) :
    Sum.elim (MinInv lo orgHigh p) (fun r => ∃ x, r.result = .ok x ∧ MinSpec lo orgHigh p x)
      (bsearchStep mid check s) := by
  obtain ⟨hlo, hhi, hbelow, hkept⟩ := hs
  have hm := mid_mem hmid h
  rw [bsearchStep_go (hcheck _ (by omega) (by omega)), Sum.elim_inl]
  cases hp : p (mid s.low s.high)
  · -- false: the search goes on above `mid`
    refine ⟨by simp only [BsState.probe]; omega, by simp only [BsState.probe]; omega, ?_, ?_⟩
    · intro j hj hjm
      simp only [BsState.probe, Bool.false_eq_true, if_false] at hjm
      by_cases hjl : j < s.low
      · exact hbelow j hj hjl
      · refine Bool.eq_false_iff.mpr fun hpj => ?_
        have hpm := hmono j (mid s.low s.high) hj (by omega) (by omega) hpj
        rw [hp] at hpm
        exact Bool.false_ne_true hpm
    · simpa only [BsState.probe, Bool.false_eq_true, if_false] using hkept
  · -- true: `mid` is kept and the search goes on below it
    refine ⟨hlo, ?_, hbelow, .inr ⟨rfl, ?_, hp⟩⟩ <;> simp only [BsState.probe, if_true] <;> omega

omit hmid in
/-- After the loop the find-minimum invariant gives the least true value. -/
theorem minInv_final {s : BsState} (hs : MinInv lo orgHigh p s) (h : ¬s.low < s.high) :
    ∃ x, (bsearchFinal check orgHigh s).result = .ok x ∧ MinSpec lo orgHigh p x := by
  obtain ⟨hlo, hhi, hbelow, hkept⟩ := hs
  by_cases heq : s.low = orgHigh
  · -- the last value is read once more
    rw [bsearchFinal_go heq (hcheck _ hlo (by omega))]
    cases hp : p s.low
    · refine ⟨none, by simp, fun i hi hi' => ?_⟩
      rcases lt_or_eq_of_le hi' with hlt | rfl
      · exact hbelow i hi (by omega)
      · rwa [← heq]
    · refine ⟨some s.low, by simp, hlo, by omega, hp, hbelow⟩
  · rw [bsearchFinal_of_ne heq]
    rcases hkept with ⟨hnone, hH⟩ | ⟨hsome, hlh, hph⟩
    · exact ⟨none, by rw [hnone], fun i hi hi' => hbelow i hi (by omega)⟩
    · exact ⟨some s.high, by rw [hsome], hlh, hhi, hph, fun j hj hjh => hbelow j hj (by omega)⟩

/-- **Find-minimum mode**: on values `lo..org_high` where the block is true from some point on,
every run from the start returns the least value where it is true, or `nil`. -/
theorem bsearchLoop_findMin {fuel : ℕ} {r : BsRun ℤ}
    (hrun : bsearchLoop mid check orgHigh fuel ⟨lo, orgHigh, none, []⟩ = some r) :
    ∃ x, r.result = .ok x ∧ MinSpec lo orgHigh p x :=
  bsearchLoop_rule (MinInv lo orgHigh p) _
    (fun _ hs h => minInv_step hmid hcheck hmono hs h)
    (fun _ hs h => minInv_final hcheck hmono hs h) fuel _ r
    ⟨le_rfl, le_rfl, fun _ h h' => absurd h' (not_lt.mpr h), .inl ⟨rfl, rfl⟩⟩ hrun

end FindMin

/-- The find-any invariant: nothing is kept, the values below `low` are positive, and `high` is
`org_high` or a negative value. -/
def AnyInv (lo orgHigh : ℤ) (c : ℤ → ℤ) (s : BsState) : Prop :=
  lo ≤ s.low ∧ s.high ≤ orgHigh ∧ s.satisfied = none ∧ (∀ j, lo ≤ j → j < s.low → 0 < c j) ∧
    (s.high = orgHigh ∨ (lo ≤ s.high ∧ c s.high < 0))

section FindAny

variable {c : ℤ → ℤ}
  (hcheck : ∀ i, lo ≤ i → i ≤ orgHigh → check i = bsearchCheck (.numeric (c i)))
  (hpos : ∀ i j, lo ≤ j → j ≤ i → i ≤ orgHigh → 0 < c i → 0 < c j)
  (hneg : ∀ i j, lo ≤ i → i ≤ j → j ≤ orgHigh → c i < 0 → c j < 0)
include hmid hcheck hpos hneg

omit hneg in
/-- A turn keeps the find-any invariant, or returns a zero it found. -/
theorem anyInv_step {s : BsState} (hs : AnyInv lo orgHigh c s) (h : s.low < s.high) :
    Sum.elim (AnyInv lo orgHigh c) (fun r => ∃ x, r.result = .ok x ∧ AnySpec lo orgHigh c x)
      (bsearchStep mid check s) := by
  obtain ⟨hlo, hhi, hnone, habove, hH⟩ := hs
  have hm := mid_mem hmid h
  have hc := hcheck (mid s.low s.high) (by omega) (by omega)
  rcases lt_trichotomy (c (mid s.low s.high)) 0 with hlt | hzero | hgt
  · -- negative: `mid` becomes `high`
    rw [bsearchStep_go (by rw [hc, bsearchCheck, if_neg hlt.ne, decide_eq_true hlt]), Sum.elim_inl]
    simp only [AnyInv, BsState.probe, if_true, Bool.false_eq_true, if_false]
    exact ⟨hlo, by omega, hnone, habove, .inr ⟨by omega, hlt⟩⟩
  · -- zero: `mid` is returned at once
    rw [bsearchStep_found (by rw [hc, bsearchCheck, if_pos hzero]), Sum.elim_inr]
    exact ⟨some _, rfl, by omega, by omega, hzero⟩
  · -- positive: the values up to `mid` are positive
    rw [bsearchStep_go (by rw [hc, bsearchCheck, if_neg hgt.ne', decide_eq_false (not_lt.mpr hgt.le)]),
      Sum.elim_inl]
    simp only [AnyInv, BsState.probe, Bool.false_eq_true, if_false]
    refine ⟨by omega, hhi, hnone, fun j hj hjm => ?_, hH⟩
    by_cases hjl : j < s.low
    · exact habove j hj hjl
    · exact hpos _ j hj (by omega) (by omega) hgt

omit hmid hpos in
/-- After the loop the find-any invariant leaves no zero unread. -/
theorem anyInv_final {s : BsState} (hs : AnyInv lo orgHigh c s) (h : ¬s.low < s.high) :
    ∃ x, (bsearchFinal check orgHigh s).result = .ok x ∧ AnySpec lo orgHigh c x := by
  obtain ⟨hlo, hhi, hnone, habove, hH⟩ := hs
  by_cases heq : s.low = orgHigh
  · -- the last value is read once more
    have hc := hcheck s.low hlo (by omega)
    rcases lt_trichotomy (c s.low) 0 with hlt | hzero | hgt
    · rw [bsearchFinal_go heq (by rw [hc, bsearchCheck, if_neg hlt.ne, decide_eq_true hlt])]
      refine ⟨none, by simp [hnone], fun i hi hi' => ?_⟩
      rcases lt_or_eq_of_le hi' with hlt' | rfl
      · exact (habove i hi (by omega)).ne'
      · rw [← heq]
        exact hlt.ne
    · rw [bsearchFinal_found heq (by rw [hc, bsearchCheck, if_pos hzero])]
      exact ⟨some s.low, rfl, hlo, by omega, hzero⟩
    · rw [bsearchFinal_go heq
        (by rw [hc, bsearchCheck, if_neg hgt.ne', decide_eq_false (not_lt.mpr hgt.le)])]
      refine ⟨none, by simp, fun i hi hi' => ?_⟩
      rcases lt_or_eq_of_le hi' with hlt' | rfl
      · exact (habove i hi (by omega)).ne'
      · rw [← heq]
        exact hgt.ne'
  · rw [bsearchFinal_of_ne heq]
    refine ⟨none, by rw [hnone], fun i hi hi' => ?_⟩
    rcases hH with hH | ⟨hlh, hch⟩
    · exact (habove i hi (by omega)).ne'
    · -- the values from `high` on are negative, and `high ≤ low`
      by_cases hil : i < s.low
      · exact (habove i hi hil).ne'
      · exact (hneg s.high i hlh (by omega) hi' hch).ne

/-- **Find-any mode**: on values `lo..org_high` where the block's sign is positive, then zero,
then negative, every run from the start returns a value where it is zero, or `nil` when there is
none. -/
theorem bsearchLoop_findAny {fuel : ℕ} {r : BsRun ℤ}
    (hrun : bsearchLoop mid check orgHigh fuel ⟨lo, orgHigh, none, []⟩ = some r) :
    ∃ x, r.result = .ok x ∧ AnySpec lo orgHigh c x :=
  bsearchLoop_rule (AnyInv lo orgHigh c) _
    (fun _ hs h => anyInv_step hmid hcheck hpos hs h)
    (fun _ hs h => anyInv_final hcheck hneg hs h) fuel _ r
    ⟨le_rfl, le_rfl, rfl, fun _ h h' => absurd h' (not_lt.mpr h), .inl rfl⟩ hrun

end FindAny

end Modes

/-! ## `BSEARCH` from its start -/

section Search

variable {mid : ℤ → ℤ → ℤ} {check : ℤ → Except String Check} {excl : Bool} {lo hi : ℤ}
  (hmid : ∀ lo hi, lo < hi → mid lo hi = (lo + hi) / 2)
include hmid

/-- **`BSEARCH` ends** within `⌈log₂ n⌉` turns on `n` values. -/
theorem bsearch_isSome {fuel : ℕ} (hfuel : Nat.clog 2 (orgHighOf excl hi - lo + 1).toNat ≤ fuel) :
    (bsearch mid check excl lo hi fuel).isSome := by
  have hpow : ((orgHighOf excl hi - lo + 1).toNat : ℤ) ≤ 2 ^ fuel := by
    have h := (Nat.le_pow_clog one_lt_two (orgHighOf excl hi - lo + 1).toNat).trans
      (Nat.pow_le_pow_right two_pos hfuel)
    exact_mod_cast h
  exact bsearchLoop_isSome hmid fuel ⟨lo, orgHighOf excl hi, none, []⟩
    (show orgHighOf excl hi - lo < 2 ^ fuel by omega)

/-- **`BSEARCH` yields only values of the interval, at most `⌈log₂ n⌉ + 1` times** on `n`
values, whatever the block answers. -/
theorem bsearch_yielded {fuel : ℕ} {r : BsRun ℤ} (h : bsearch mid check excl lo hi fuel = some r) :
    (∀ y ∈ r.yielded, lo ≤ y ∧ y ≤ orgHighOf excl hi) ∧
      r.yielded.length ≤ Nat.clog 2 (orgHighOf excl hi - lo + 1).toNat + 1 := by
  refine ⟨bsearchLoop_yielded_mem hmid lo fuel _ r ⟨le_rfl, le_rfl, by simp⟩ h, ?_⟩
  set N := Nat.clog 2 (orgHighOf excl hi - lo + 1).toNat
  by_cases hN : N ≤ fuel
  · -- the run is the one within `N` turns
    have hsome : (bsearch mid check excl lo hi N).isSome := bsearch_isSome hmid le_rfl
    obtain ⟨r', hr'⟩ := Option.isSome_iff_exists.mp hsome
    have heq : bsearch mid check excl lo hi fuel = some r' := bsearchLoop_mono N fuel _ r' hN hr'
    rw [h, Option.some.injEq] at heq
    have hlen := bsearchLoop_yielded_length N _ r' hr'
    rw [heq]
    simpa using hlen
  · have hlen := bsearchLoop_yielded_length fuel _ r h
    simp only [List.length_nil, zero_add] at hlen
    omega

end Search

/-- A block true everywhere makes find-minimum mode return the first value. -/
theorem minSpec_true {lo hi : ℤ} {x : Option ℤ} (hx : MinSpec lo hi (fun _ => true) x)
    (h : lo ≤ hi) : x = some lo := by
  cases x with
  | none => exact absurd (hx lo le_rfl h).symm Bool.false_ne_true
  | some m =>
    obtain ⟨hlo, -, -, hbelow⟩ := hx
    by_contra hne
    exact Bool.false_ne_true (hbelow lo le_rfl (lt_of_le_of_ne hlo (fun h' => hne (h' ▸ rfl)))).symm

/-! ## Integer endpoints -/

section IntEndpoints

variable (big2dbl : ℤ → Double) (block : RNum → BlockAnswer) (a b : ℤ) (excl : Bool)

/-- On Integer endpoints both paths run `BSEARCH` over the integers themselves, with a `mid`
that is the mean rounded down. -/
theorem rangeBsearch_int (fuel : ℕ) :
    ∃ mid : ℤ → ℤ → ℤ, (∀ lo hi, lo < hi → mid lo hi = (lo + hi) / 2) ∧
      rangeBsearch big2dbl block (.int a) (.int b) excl fuel =
        (bsearch mid (fun i => bsearchCheck (block (.int i))) excl a b fuel).map
          (BsRun.map .int) := by
  dsimp only [rangeBsearch]
  split_ifs
  · exact ⟨bsMid, fun _ _ h => bsMid_eq h, rfl⟩
  · exact ⟨intMid, fun lo hi _ => intMid_eq lo hi, rfl⟩

/-- **`Range#bsearch` on Integer endpoints ends, and yields only elements of the range, at most
`⌈log₂ n⌉ + 1` times** on `n` elements. -/
theorem rangeBsearch_int_yielded :
    ∃ N, ∀ fuel, N ≤ fuel → ∃ r, rangeBsearch big2dbl block (.int a) (.int b) excl fuel = some r ∧
      (∀ v ∈ r.yielded, ∃ i, v = .int i ∧ a ≤ i ∧ i ≤ orgHighOf excl b) ∧
      r.yielded.length ≤ Nat.clog 2 (orgHighOf excl b - a + 1).toNat + 1 := by
  refine ⟨Nat.clog 2 (orgHighOf excl b - a + 1).toNat, fun fuel hfuel => ?_⟩
  obtain ⟨mid, hmid, heq⟩ := rangeBsearch_int big2dbl block a b excl fuel
  have hsome : (bsearch mid (fun i => bsearchCheck (block (.int i))) excl a b fuel).isSome :=
    bsearch_isSome hmid hfuel
  obtain ⟨r, hr⟩ := Option.isSome_iff_exists.mp hsome
  obtain ⟨hmem, hlen⟩ := bsearch_yielded hmid hr
  refine ⟨r.map .int, by rw [heq, hr, Option.map_some], fun v hv => ?_, ?_⟩
  · obtain ⟨i, hi, rfl⟩ := List.mem_map.mp hv
    exact ⟨i, rfl, hmem i hi⟩
  · simpa [BsRun.map] using hlen

/-- **`Range#bsearch` on Integer endpoints, find-minimum mode**: a block that answers `true`,
`false` or `nil` and is true from some element on returns the least element where it is true,
or `nil` when there is none. -/
theorem rangeBsearch_int_findMin
    (hbool : ∀ i, a ≤ i → i ≤ orgHighOf excl b →
      block (.int i) = .qtrue ∨ block (.int i) = .qfalse ∨ block (.int i) = .qnil)
    (hmono : ∀ i j, a ≤ i → i ≤ j → j ≤ orgHighOf excl b →
      block (.int i) = .qtrue → block (.int j) = .qtrue)
    {fuel : ℕ} {r : BsRun RNum} (h : rangeBsearch big2dbl block (.int a) (.int b) excl fuel = some r) :
    ∃ x, r.result = .ok (x.map .int) ∧
      MinSpec a (orgHighOf excl b) (fun i => decide (block (.int i) = .qtrue)) x := by
  obtain ⟨mid, hmid, heq⟩ := rangeBsearch_int big2dbl block a b excl fuel
  rw [heq, Option.map_eq_some_iff] at h
  obtain ⟨r', hr', rfl⟩ := h
  have hcheck : ∀ i, a ≤ i → i ≤ orgHighOf excl b → bsearchCheck (block (.int i)) =
      .ok (.go (decide (block (.int i) = .qtrue)) (decide (block (.int i) = .qtrue))) := by
    intro i hi hi'
    rcases hbool i hi hi' with h | h | h <;> rw [h] <;> rfl
  obtain ⟨x, hx, hspec⟩ := bsearchLoop_findMin hmid hcheck
    (fun i j hi hij hj hp => decide_eq_true (hmono i j hi hij hj (of_decide_eq_true hp))) hr'
  exact ⟨x, by rw [BsRun.map, hx]; rfl, hspec⟩

/-- **`Range#bsearch` on Integer endpoints, find-any mode**: a block that answers numbers,
positive below `x`, zero from `x` to before `y` and negative from `y` on, returns an element where
it is zero, or `nil` when the range has none. -/
theorem rangeBsearch_int_findAny (c : ℤ → ℤ)
    (hnum : ∀ i, a ≤ i → i ≤ orgHighOf excl b →
      block (.int i) = .fixnum (c i) ∨ block (.int i) = .numeric (c i))
    (x y : ℤ) (hxy : ∀ i, a ≤ i → i ≤ orgHighOf excl b →
      (i < x → 0 < c i) ∧ (x ≤ i → i < y → c i = 0) ∧ (y ≤ i → c i < 0))
    {fuel : ℕ} {r : BsRun RNum} (h : rangeBsearch big2dbl block (.int a) (.int b) excl fuel = some r) :
    ∃ z, r.result = .ok (z.map .int) ∧ AnySpec a (orgHighOf excl b) c z := by
  obtain ⟨mid, hmid, heq⟩ := rangeBsearch_int big2dbl block a b excl fuel
  rw [heq, Option.map_eq_some_iff] at h
  obtain ⟨r', hr', rfl⟩ := h
  have hcheck : ∀ i, a ≤ i → i ≤ orgHighOf excl b →
      bsearchCheck (block (.int i)) = bsearchCheck (.numeric (c i)) := by
    intro i hi hi'
    rcases hnum i hi hi' with h | h
    · rw [h]
      rfl
    · rw [h]
  -- the sign falls from positive to zero to negative
  have hpos : ∀ i j, a ≤ j → j ≤ i → i ≤ orgHighOf excl b → 0 < c i → 0 < c j := by
    intro i j hj hji hi hci
    have := hxy i (by omega) hi
    have := hxy j hj (by omega)
    omega
  have hneg : ∀ i j, a ≤ i → i ≤ j → j ≤ orgHighOf excl b → c i < 0 → c j < 0 := by
    intro i j hi hij hj hci
    have := hxy i hi (by omega)
    have := hxy j (by omega) hj
    omega
  obtain ⟨z, hz, hspec⟩ := bsearchLoop_findAny hmid hcheck hpos hneg hr'
  exact ⟨z, by rw [BsRun.map, hz]; rfl, hspec⟩

end IntEndpoints

/-! ## A Float and an Integer endpoint -/

/-- The bits `double_as_int64` gives a positive normal double `m * 2 ^ e`. -/
theorem doubleAsInt64_normal {m : ℕ} {e : ℤ} (hm1 : 2 ^ 52 ≤ m) (hm2 : m < 2 ^ 53)
    (he : -1074 ≤ e) :
    doubleAsInt64 (.finite (m * 2 ^ e)) = ((e + 1075).toNat * 2 ^ 52 + (m - 2 ^ 52) : ℕ) := by
  have hpos : ¬(m : ℚ) * 2 ^ e < 0 := not_lt.mpr (by positivity)
  rw [doubleAsInt64, if_neg hpos, Binary64.magBits_normal hm1 hm2 he]

/-- `int64_as_double_to_num` reads the bits of a positive normal double back. -/
theorem int64AsDoubleToNum_normal {m : ℕ} {e : ℤ} (hm1 : 2 ^ 52 ≤ m) (hm2 : m < 2 ^ 53)
    (he : -1074 ≤ e) (he' : e ≤ 971) :
    int64AsDoubleToNum ((e + 1075).toNat * 2 ^ 52 + (m - 2 ^ 52) : ℕ) = .float (.finite (m * 2 ^ e)) := by
  have hfield : ((e + 1075).toNat * 2 ^ 52 + (m - 2 ^ 52)) / 2 ^ 52 < 2047 := by omega
  rw [int64AsDoubleToNum, if_neg (by omega), Int.toNat_natCast, ofMagBits, if_pos hfield,
    Binary64.magValue_normal hm1 hm2 he]

/-- **`Range#bsearch` can return a value outside the range.** With a Float end, the Integer
start `2 ** 54 + 5` is rounded by `rb_Float` to the double `2 ** 54 + 4` below it, and the search
starts there: `(2**54 + 5 .. 2.0**60).bsearch { true }` returns `2.0**54 + 4`, which the range
does not cover (`2 ** 54 + 5 <=> 2.0**54 + 4` is `1`). -/
theorem bsearch_float_end_leaves_range (big2dbl : ℤ → Double) :
    ∃ N, ∀ fuel, N ≤ fuel → ∃ ys,
      rangeBsearch big2dbl (fun _ => .qtrue) (.int (2 ^ 54 + 5)) (.float (.finite (2 ^ 60))) false
          fuel = some ⟨.ok (some (.float (.finite (2 ^ 54 + 4)))), ys⟩ ∧
        rCoverP false (.int (2 ^ 54 + 5)) (.float (.finite (2 ^ 60)))
          (.float (.finite (2 ^ 54 + 4))) = false := by
  -- `rb_Float` rounds the start to the nearest double
  have hround : Binary64.round ((2 ^ 54 + 5 : ℤ) : ℚ) = 2 ^ 54 + 4 := by
    have hone : (2 : ℚ) ^ (-1022 : ℤ) ≤ 1 := zpow_le_one_of_nonpos₀ one_le_two (by norm_num)
    have hbig : (2 : ℚ) ^ (64 : ℤ) ≤ 2 ^ (1023 : ℤ) := zpow_le_zpow_right₀ one_le_two (by norm_num)
    refine Binary64.round_eq_of_near (k := 54) ⟨2 ^ 52 + 1, 2, by norm_num, by norm_num,
      by norm_num, by norm_num⟩ (by norm_num [Binary64.ulp]) (by norm_num [Binary64.ulp])
      (hone.trans (by norm_num)) (lt_of_lt_of_le (by norm_num) hbig)
  -- the two doubles as `m * 2 ^ e`
  have hstart : (2 ^ 54 + 4 : ℚ) = ((2 ^ 52 + 1 : ℕ) : ℚ) * 2 ^ (2 : ℤ) := by norm_num
  have hend : (2 ^ 60 : ℚ) = ((2 ^ 52 : ℕ) : ℚ) * 2 ^ (8 : ℤ) := by norm_num
  have hlow : doubleAsInt64 (rbFloat big2dbl (.int (2 ^ 54 + 5))) = 1077 * 2 ^ 52 + 1 := by
    rw [rbFloat, if_pos (by decide), hround, hstart,
      doubleAsInt64_normal (by norm_num) (by norm_num) (by norm_num)]
    norm_num
  have hhigh : doubleAsInt64 (rbFloat big2dbl (.float (.finite (2 ^ 60)))) = 1083 * 2 ^ 52 := by
    rw [rbFloat, hend, doubleAsInt64_normal (by norm_num) (by norm_num) (by norm_num)]
    norm_num
  have hconv : int64AsDoubleToNum (1077 * 2 ^ 52 + 1) = .float (.finite (2 ^ 54 + 4)) := by
    rw [hstart, ← int64AsDoubleToNum_normal (by norm_num) (by norm_num) (by norm_num) (by norm_num)]
    norm_num
  -- the search is the Float path from the bits of the start to those of the end
  have hpath : ∀ fuel, rangeBsearch big2dbl (fun _ => .qtrue) (.int (2 ^ 54 + 5))
      (.float (.finite (2 ^ 60))) false fuel =
      (bsearch bsMid (fun _ => .ok (.go true true)) false (1077 * 2 ^ 52 + 1) (1083 * 2 ^ 52)
        fuel).map (BsRun.map int64AsDoubleToNum) := by
    intro fuel
    rw [← hlow, ← hhigh]
    rfl
  have hmid : ∀ lo hi, lo < hi → bsMid lo hi = (lo + hi) / 2 := fun _ _ h => bsMid_eq h
  refine ⟨Nat.clog 2 (orgHighOf false (1083 * 2 ^ 52) - (1077 * 2 ^ 52 + 1) + 1).toNat,
    fun fuel hfuel => ?_⟩
  have hsome : (bsearch bsMid (fun _ => .ok (.go true true)) false (1077 * 2 ^ 52 + 1)
      (1083 * 2 ^ 52) fuel).isSome := bsearch_isSome hmid hfuel
  obtain ⟨r, hr⟩ := Option.isSome_iff_exists.mp hsome
  -- the block is true everywhere, so the search returns where it starts
  obtain ⟨x, hx, hspec⟩ := bsearchLoop_findMin (p := fun _ => true) hmid
    (fun _ _ _ => rfl) (fun _ _ _ _ _ _ => rfl) hr
  have hxs := minSpec_true hspec (by simp only [orgHighOf]; norm_num)
  subst hxs
  refine ⟨r.yielded.map int64AsDoubleToNum, ?_, ?_⟩
  · rw [hpath, hr, Option.map_some, BsRun.map, hx, Except.map, Option.map_some, hconv]
  · simp only [rCoverP, rLess, RNum.cmp, integerFloatCmp]
    norm_num

end CRuby.Range
