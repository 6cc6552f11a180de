import Mathlib.Algebra.Order.Floor.Ring
import Mathlib.Data.Rat.Floor
import Mathlib.Data.Rat.Lemmas
import Mathlib.Tactic.FieldSimp
import Mathlib.Tactic.Linarith

/-!
# `Rational#rationalize` (rational.c)

`nurat_rationalize_internal(a, b)` walks the continued fractions of `a` and `b` together: while
`⌈a⌉ ≥ b` it takes the partial quotient `k = ⌈a⌉ - 1`, which both share, and goes on with
`(1/(b-k), 1/(a-k))`; at the first `c = ⌈a⌉ < b` it answers the convergent `(c p₁ + p₀)/(c q₁ + q₀)`.
The convergents are read through the map `y ↦ (p₁ y + p₀)/(q₁ y + q₀)` (`convergentValue`),
which sends every point of the current interval into the first one; so whatever `a < b` the
loop is given, it stops (`a.den + b.den` falls at every step) with a denominator `q > 0` and an
answer in `[a, b]` (`rationalizeLoop_spec`).

The comment above the function derives minimality under `0 < a`. `nurat_rationalize` only
flips the sign of a negative receiver, so `a = x - |eps|` may be `≤ 0`; the loop then stops at
once with `⌈a⌉`, the least integer of the interval, and not with `0`
(`nuratRationalize_of_le_abs`).

`fuel` bounds the `while (1)`; `none` is the loop running out of it or `f_rational_new2` raising
`ZeroDivisionError`, and neither happens for `eps ≠ 0` (`nuratRationalize_mem`).
-/

namespace CRuby.Num

/-- The `while (1)` of `nurat_rationalize_internal(a, b, &p, &q)`, with the convergents
`p0, p1, q0, q1` of the partial quotients taken so far. -/
def rationalizeLoop : ℕ → ℚ → ℚ → ℤ → ℤ → ℤ → ℤ → Option (ℤ × ℤ)
  | 0, _, _, _, _, _, _ => none
  | fuel + 1, a, b, p0, p1, q0, q1 =>
    let c := ⌈a⌉
    if (c : ℚ) < b then some (c * p1 + p0, c * q1 + q0)
    else
      let k := c - 1
      -- `t = 1/(b-k); b = 1/(a-k); a = t`, and the convergents shift by one
      rationalizeLoop fuel (1 / (b - k)) (1 / (a - k)) p1 (k * p1 + p0) q1 (k * q1 + q0)

/-- `nurat_rationalize_internal(a, b, &p, &q)`: `p[-1] = 0, p[0] = 1, q[-1] = 1, q[0] = 0`. -/
def nuratRationalizeInternal (fuel : ℕ) (a b : ℚ) : Option (ℤ × ℤ) :=
  rationalizeLoop fuel a b 0 1 1 0

/-- `f_rational_new2(klass, p, q)`: `p/q` in lowest terms, `ZeroDivisionError` for `q = 0`. -/
def fRationalNew2 (p q : ℤ) : Option ℚ :=
  if q = 0 then none else some ((p : ℚ) / q)

/-- The part of `nurat_rationalize` after the sign test, for the receiver `self` and `eps`. -/
def nuratRationalizeAbs (fuel : ℕ) (self e : ℚ) : Option ℚ :=
  let e := |e|
  let a := self - e
  let b := self + e
  if a = b then some self
  else (nuratRationalizeInternal fuel a b).bind fun (p, q) => fRationalNew2 p q

/-- `rat.rationalize` (`eps = none`) and `rat.rationalize(eps)`: a negative receiver is
negated, rationalized and negated back. -/
def nuratRationalize (fuel : ℕ) (self : ℚ) : Option ℚ → Option ℚ
  | none => some self
  | some e =>
    if self < 0 then (fun r => -r) <$> nuratRationalizeAbs fuel (-self) e
    else nuratRationalizeAbs fuel self e

/-- What the claim of the comment asks of `r`: it lies in `[a, b]` and no rational of `[a, b]`
has a smaller denominator or a numerator of smaller absolute value. -/
def IsSimplestIn (a b r : ℚ) : Prop :=
  a ≤ r ∧ r ≤ b ∧ ∀ s : ℚ, a ≤ s → s ≤ b → r.den ≤ s.den ∧ r.num.natAbs ≤ s.num.natAbs

section Loop

variable {fuel : ℕ} {a b : ℚ} {p0 p1 q0 q1 : ℤ}

theorem rationalizeLoop_break (h : (⌈a⌉ : ℚ) < b) :
    rationalizeLoop (fuel + 1) a b p0 p1 q0 q1 = some (⌈a⌉ * p1 + p0, ⌈a⌉ * q1 + q0) := by
  simp only [rationalizeLoop, if_pos h]

theorem rationalizeLoop_step (h : b ≤ ⌈a⌉) :
    rationalizeLoop (fuel + 1) a b p0 p1 q0 q1 =
      rationalizeLoop fuel (1 / (b - ((⌈a⌉ - 1 : ℤ) : ℚ))) (1 / (a - ((⌈a⌉ - 1 : ℤ) : ℚ))) p1
        ((⌈a⌉ - 1) * p1 + p0) q1 ((⌈a⌉ - 1) * q1 + q0) := by
  simp only [rationalizeLoop, if_neg (not_lt.mpr h)]

end Loop

/-! ### One partial quotient -/

/-- The value of the convergents `p0, p1, q0, q1` continued by the tail `y`. -/
def convergentValue (p0 p1 q0 q1 : ℤ) (y : ℚ) : ℚ := (p1 * y + p0) / (q1 * y + q0)

/-- Taking the partial quotient `k` turns the tail `k + 1/y` into the tail `y`. -/
theorem convergentValue_shift (p0 p1 q0 q1 k : ℤ) {y : ℚ} (hy : y ≠ 0) :
    convergentValue p1 (k * p1 + p0) q1 (k * q1 + q0) y = convergentValue p0 p1 q0 q1 (k + 1 / y) := by
  -- multiply both parts of the right side by `y`
  have key : ∀ m n : ℚ, (m * (k + 1 / y) + n) * y = (k * m + n) * y + m := by
    intro m n
    rw [add_mul, mul_assoc, add_mul, one_div, inv_mul_cancel₀ hy]
    ring
  unfold convergentValue
  symm
  rw [← mul_div_mul_right _ _ hy, key, key]
  push_cast
  rfl

/-- A positive rational below `1` has an inverse of smaller denominator. -/
theorem den_inv_lt_of_pos {r : ℚ} (h0 : 0 < r) (h1 : r < 1) : (1 / r).den < r.den := by
  rw [one_div, Rat.den_inv_of_ne_zero h0.ne']
  have hnum : 0 < r.num := Rat.num_pos.mpr h0
  have hlt : r.num < r.den := Rat.num_lt_denom_iff.mpr h1
  omega

theorem den_inv_le_of_pos {r : ℚ} (h0 : 0 < r) (h1 : r ≤ 1) : (1 / r).den ≤ r.den := by
  rcases h1.lt_or_eq with h1 | rfl
  · exact (den_inv_lt_of_pos h0 h1).le
  · simp

section Step

variable {a b : ℚ}

/-- Where the loop goes on (`a < b ≤ ⌈a⌉`), the partial quotient `k = ⌈a⌉ - 1` lies below `a`
and `b` at most one above it. -/
theorem step_bounds (hb : b ≤ ⌈a⌉) :
    0 < a - ((⌈a⌉ - 1 : ℤ) : ℚ) ∧ b - ((⌈a⌉ - 1 : ℤ) : ℚ) ≤ 1 := by
  have hc : (⌈a⌉ : ℚ) < a + 1 := Int.ceil_lt_add_one a
  push_cast
  constructor <;> linarith

/-- The next interval is again ordered, and starts at `1` or above. -/
theorem step_lt (hab : a < b) (hb : b ≤ ⌈a⌉) :
    1 ≤ 1 / (b - ((⌈a⌉ - 1 : ℤ) : ℚ)) ∧ 1 / (b - ((⌈a⌉ - 1 : ℤ) : ℚ)) < 1 / (a - ((⌈a⌉ - 1 : ℤ) : ℚ)) := by
  obtain ⟨ha, hb1⟩ := step_bounds hb
  have hbk : 0 < b - ((⌈a⌉ - 1 : ℤ) : ℚ) := by linarith
  exact ⟨by rw [le_div_iff₀ hbk]; linarith, one_div_lt_one_div_of_lt ha (by linarith)⟩

/-- The measure of the loop: `a.den + b.den` falls at every step. -/
theorem step_den_lt (hab : a < b) (hb : b ≤ ⌈a⌉) :
    (1 / (b - ((⌈a⌉ - 1 : ℤ) : ℚ))).den + (1 / (a - ((⌈a⌉ - 1 : ℤ) : ℚ))).den < a.den + b.den := by
  obtain ⟨ha, hb1⟩ := step_bounds hb
  have ha1 : a - ((⌈a⌉ - 1 : ℤ) : ℚ) < 1 := by linarith
  have hA := den_inv_lt_of_pos ha ha1
  have hB := den_inv_le_of_pos (by linarith) hb1
  rw [Rat.sub_intCast_den] at hA hB
  omega

/-- Every tail of the next interval is `k + 1/y` for a tail of the current one. -/
theorem step_tail_mem (hab : a < b) (hb : b ≤ ⌈a⌉) {y : ℚ}
    (hy1 : 1 / (b - ((⌈a⌉ - 1 : ℤ) : ℚ)) ≤ y) (hy2 : y ≤ 1 / (a - ((⌈a⌉ - 1 : ℤ) : ℚ))) :
    y ≠ 0 ∧ a ≤ ((⌈a⌉ - 1 : ℤ) : ℚ) + 1 / y ∧ ((⌈a⌉ - 1 : ℤ) : ℚ) + 1 / y ≤ b := by
  obtain ⟨ha, -⟩ := step_bounds hb
  have hbk : 0 < b - ((⌈a⌉ - 1 : ℤ) : ℚ) := by linarith
  have hy : 0 < y := lt_of_lt_of_le (one_div_pos.mpr hbk) hy1
  have h1 : a - ((⌈a⌉ - 1 : ℤ) : ℚ) ≤ 1 / y := by
    rwa [le_one_div ha hy]
  have h2 : 1 / y ≤ b - ((⌈a⌉ - 1 : ℤ) : ℚ) := by
    rwa [one_div_le hy hbk]
  exact ⟨hy.ne', by linarith, by linarith⟩

end Step

/-! ### The loop invariant -/

/-- What holds of the loop state of `nurat_rationalize_internal` run on `[a₀, b₀]`: the
interval is ordered, every tail in it gives a value in `[a₀, b₀]`, and the denominators are
those of the start or positive with `a ≥ 1`. -/
structure LoopInv (a₀ b₀ a b : ℚ) (p0 p1 q0 q1 : ℤ) : Prop where
  lt : a < b
  maps : ∀ y, a ≤ y → y ≤ b → a₀ ≤ convergentValue p0 p1 q0 q1 y ∧ convergentValue p0 p1 q0 q1 y ≤ b₀
  den : (q1 = 0 ∧ q0 = 1) ∨ (1 ≤ a ∧ 0 ≤ q0 ∧ 0 < q1)

theorem LoopInv.start {a b : ℚ} (hab : a < b) : LoopInv a b a b 0 1 1 0 where
  lt := hab
  maps y h1 h2 := by simpa [convergentValue] using ⟨h1, h2⟩
  den := .inl ⟨rfl, rfl⟩

theorem LoopInv.step {a₀ b₀ a b : ℚ} {p0 p1 q0 q1 : ℤ} (hi : LoopInv a₀ b₀ a b p0 p1 q0 q1)
    (hb : b ≤ ⌈a⌉) :
    LoopInv a₀ b₀ (1 / (b - ((⌈a⌉ - 1 : ℤ) : ℚ))) (1 / (a - ((⌈a⌉ - 1 : ℤ) : ℚ)))
      p1 ((⌈a⌉ - 1) * p1 + p0) q1 ((⌈a⌉ - 1) * q1 + q0) where
  lt := (step_lt hi.lt hb).2
  maps y h1 h2 := by
    obtain ⟨hy, hk1, hk2⟩ := step_tail_mem hi.lt hb h1 h2
    rw [convergentValue_shift _ _ _ _ _ hy]
    exact hi.maps _ hk1 hk2
  den := by
    refine .inr ⟨(step_lt hi.lt hb).1, ?_⟩
    rcases hi.den with ⟨rfl, rfl⟩ | ⟨ha, hq0, hq1⟩
    · simp
    · -- from `1 ≤ a < b ≤ ⌈a⌉` the partial quotient `⌈a⌉ - 1` is at least `1`
      have hc : (1 : ℚ) < ⌈a⌉ := by linarith [hi.lt]
      have hk : 1 ≤ ⌈a⌉ - 1 := by
        have : (1 : ℤ) < ⌈a⌉ := by exact_mod_cast hc
        omega
      exact ⟨hq1.le, by nlinarith⟩

/-- Where the loop stops, `c = ⌈a⌉` is a tail of the interval and the denominator is positive. -/
theorem LoopInv.finish {a₀ b₀ a b : ℚ} {p0 p1 q0 q1 : ℤ} (hi : LoopInv a₀ b₀ a b p0 p1 q0 q1)
    (h : (⌈a⌉ : ℚ) < b) :
    0 < ⌈a⌉ * q1 + q0 ∧ a₀ ≤ ((⌈a⌉ * p1 + p0 : ℤ) : ℚ) / ((⌈a⌉ * q1 + q0 : ℤ) : ℚ) ∧
      ((⌈a⌉ * p1 + p0 : ℤ) : ℚ) / ((⌈a⌉ * q1 + q0 : ℤ) : ℚ) ≤ b₀ := by
  have hval : ((⌈a⌉ * p1 + p0 : ℤ) : ℚ) / ((⌈a⌉ * q1 + q0 : ℤ) : ℚ) =
      convergentValue p0 p1 q0 q1 ⌈a⌉ := by
    unfold convergentValue; push_cast; ring_nf
  rw [hval]
  refine ⟨?_, hi.maps _ (Int.le_ceil a) h.le⟩
  rcases hi.den with ⟨rfl, rfl⟩ | ⟨ha, hq0, hq1⟩
  · simp
  · have hc : (0 : ℚ) < ⌈a⌉ := by linarith [Int.le_ceil a]
    have : 0 < ⌈a⌉ := by exact_mod_cast hc
    nlinarith

/-- The loop of `nurat_rationalize_internal` stops within `a.den + b.den` rounds with a positive
denominator and a value in the first interval. The induction is on the fuel, the invariant
`LoopInv` carries the interval through each partial quotient. -/
theorem rationalizeLoop_spec {a₀ b₀ : ℚ} :
    ∀ (fuel : ℕ) (a b : ℚ) (p0 p1 q0 q1 : ℤ), LoopInv a₀ b₀ a b p0 p1 q0 q1 →
      a.den + b.den ≤ fuel →
      ∃ p q, rationalizeLoop fuel a b p0 p1 q0 q1 = some (p, q) ∧ 0 < q ∧
        a₀ ≤ (p : ℚ) / q ∧ (p : ℚ) / q ≤ b₀
  | 0, a, _, _, _, _, _, _, hf => absurd hf (by have := a.den_pos; omega)
  | fuel + 1, a, b, p0, p1, q0, q1, hi, hf => by
    by_cases h : (⌈a⌉ : ℚ) < b
    · rw [rationalizeLoop_break h]
      exact ⟨_, _, rfl, hi.finish h⟩
    · have hb : b ≤ ⌈a⌉ := not_lt.mp h
      rw [rationalizeLoop_step hb]
      refine rationalizeLoop_spec fuel _ _ _ _ _ _ (hi.step hb) ?_
      have := step_den_lt hi.lt hb
      omega

/-- `nurat_rationalize_internal` followed by `f_rational_new2` on `a < b`. -/
theorem nuratRationalizeInternal_spec {fuel : ℕ} {a b : ℚ} (hab : a < b)
    (hf : a.den + b.den ≤ fuel) :
    ∃ r, ((nuratRationalizeInternal fuel a b).bind fun (p, q) => fRationalNew2 p q) = some r ∧
      a ≤ r ∧ r ≤ b := by
  obtain ⟨p, q, hrun, hq, h1, h2⟩ := rationalizeLoop_spec fuel a b 0 1 1 0 (LoopInv.start hab) hf
  refine ⟨(p : ℚ) / q, ?_, h1, h2⟩
  simp [nuratRationalizeInternal, hrun, fRationalNew2, hq.ne']

/-! ### `rationalize(eps)` -/

theorem abs_sub_lt_add {x e : ℚ} (he : e ≠ 0) : x - |e| < x + |e| := by
  have := abs_pos.mpr he
  linarith

theorem nuratRationalizeAbs_mem {fuel : ℕ} {x e : ℚ} (he : e ≠ 0)
    (hf : (x - |e|).den + (x + |e|).den ≤ fuel) :
    ∃ r, nuratRationalizeAbs fuel x e = some r ∧ x - |e| ≤ r ∧ r ≤ x + |e| := by
  have hab := abs_sub_lt_add (x := x) he
  simp only [nuratRationalizeAbs, if_neg hab.ne]
  exact nuratRationalizeInternal_spec hab hf

/-- For every receiver and every `eps ≠ 0`, `rationalize(eps)` answers a rational of
`[x - |eps|, x + |eps|]`, given fuel for the loop. -/
theorem nuratRationalize_mem {fuel : ℕ} {x e : ℚ} (he : e ≠ 0)
    (hf : (x - |e|).den + (x + |e|).den ≤ fuel) :
    ∃ r, nuratRationalize fuel x (some e) = some r ∧ x - |e| ≤ r ∧ r ≤ x + |e| := by
  simp only [nuratRationalize]
  split_ifs with hx
  · -- the negated receiver has the same interval, mirrored
    have hf' : (-x - |e|).den + (-x + |e|).den ≤ fuel := by
      rw [show -x - |e| = -(x + |e|) by ring, show -x + |e| = -(x - |e|) by ring,
        Rat.neg_den, Rat.neg_den]
      omega
    obtain ⟨r, hr, h1, h2⟩ := nuratRationalizeAbs_mem he hf'
    exact ⟨-r, by rw [hr]; rfl, by linarith, by linarith⟩
  · exact nuratRationalizeAbs_mem he hf

/-- On a receiver `0 ≤ x ≤ |eps|` the interval reaches `0` or below, and the first ceiling
already lies in it: `rationalize` answers `⌈x - |eps|⌉`, the least integer of the interval. -/
theorem nuratRationalize_of_le_abs {fuel : ℕ} {x e : ℚ} (hx : 0 ≤ x) (hxe : x ≤ |e|)
    (he : e ≠ 0) :
    nuratRationalize (fuel + 1) x (some e) = some (⌈x - |e|⌉ : ℚ) := by
  have hab := abs_sub_lt_add (x := x) he
  have hc : (⌈x - |e|⌉ : ℚ) < x + |e| := by
    have : ⌈x - |e|⌉ ≤ 0 := Int.ceil_le.mpr (by push_cast; linarith)
    have : (⌈x - |e|⌉ : ℚ) ≤ 0 := by exact_mod_cast this
    linarith [abs_pos.mpr he]
  simp [nuratRationalize, not_lt.mpr hx, nuratRationalizeAbs, hab.ne, nuratRationalizeInternal,
    rationalizeLoop_break hc, fRationalNew2]

/-- `Rational(1, 2).rationalize(2)` answers `-1`, though `0` lies in `[-3/2, 5/2]` and has the
smaller numerator. -/
theorem rationalize_not_simplest (fuel : ℕ) :
    nuratRationalize (fuel + 1) (1 / 2) (some 2) = some (-1) ∧
      ¬IsSimplestIn (1 / 2 - |2|) (1 / 2 + |2|) (-1) := by
  constructor
  · rw [nuratRationalize_of_le_abs (by norm_num) (by norm_num) (by norm_num)]
    norm_num
  · rintro ⟨-, -, hmin⟩
    have h0 := (hmin 0 (by norm_num) (by norm_num)).2
    simp at h0

end CRuby.Num
