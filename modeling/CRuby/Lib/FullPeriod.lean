import Mathlib.Algebra.Ring.GeomSum
import Mathlib.Data.Nat.ModEq
import Mathlib.Data.Nat.Prime.Basic
import Mathlib.Data.Finset.Card
import Mathlib.Logic.Function.Iterate
import Mathlib.Tactic.Ring

/-!
# Full period of `x ↦ a * x + c` modulo a power of two

A step `x ↦ (a * x + c) % 2 ^ p` with `a % 4 = 1` and `c` odd permutes the residues below
`2 ^ p` in a single cycle: started anywhere, it meets every residue within `2 ^ p` steps
(`exists_iterate_lcgStep_eq`). This is the Hull–Dobell condition for a power-of-two modulus.

`n` steps from `x` add `(∑ i < n, a ^ i) * ((a - 1) * x + c)` to `x`. The second factor is odd,
so `n` steps return to `x` exactly when `2 ^ p` divides the geometric sum, which it does exactly
when it divides `n` (`two_pow_dvd_geomSum_iff`): halving, `∑ i < 2m, a^i` is
`(∑ i < m, a^i) * (a^m + 1)` with `a^m + 1` twice an odd number, and a sum of an odd number of
powers of `a` is odd. So the first `2 ^ p` steps meet `2 ^ p` distinct residues, all of them.
-/

namespace FullPeriod

open Finset

variable {a c p : ℕ}

/-- One step of the generator modulo `2 ^ p`. -/
def lcgStep (a c p x : ℕ) : ℕ := (a * x + c) % 2 ^ p

/-- The geometric sum `1 + a + ⋯ + a ^ (n - 1)`. -/
def geomSum (a n : ℕ) : ℕ := ∑ i ∈ range n, a ^ i

/-! ## The geometric sum modulo powers of two -/

theorem pow_mod_four (ha : a % 4 = 1) (n : ℕ) : a ^ n % 4 = 1 := by
  rw [Nat.pow_mod, ha, one_pow]
  rfl

theorem geomSum_succ (a n : ℕ) : geomSum a (n + 1) = a * geomSum a n + 1 := by
  rw [geomSum, sum_range_succ', pow_zero, geomSum, mul_sum]
  simp only [pow_succ, mul_comm]

/-- Every power of `a` is `1` modulo `4`, so the sum of `n` of them is `n`. -/
theorem geomSum_mod_four (ha : a % 4 = 1) (n : ℕ) : geomSum a n % 4 = n % 4 := by
  induction n with
  | zero => rfl
  | succ n ih =>
    rw [geomSum, sum_range_succ, ← geomSum, Nat.add_mod, ih, pow_mod_four ha]
    omega

/-- Halving: the sum of `2 * m` powers is the sum of `m` of them times `a ^ m + 1`. -/
theorem geomSum_two_mul (a m : ℕ) : geomSum a (2 * m) = geomSum a m * (a ^ m + 1) := by
  rw [geomSum, geomSum, two_mul, sum_range_add]
  simp only [pow_add, ← mul_sum]
  ring

/-- **`2 ^ p` divides the geometric sum exactly when it divides the number of terms**, for
`a % 4 = 1`. By induction on `p`: an odd number of terms has an odd sum, and an even number
`2 * m` has the sum of `m` terms times `a ^ m + 1`, twice an odd number. -/
theorem two_pow_dvd_geomSum_iff (ha : a % 4 = 1) :
    ∀ p n, 2 ^ p ∣ geomSum a n ↔ 2 ^ p ∣ n := by
  intro p
  induction p with
  | zero => simp
  | succ p ih =>
    intro n
    obtain ⟨m, rfl | rfl⟩ := Nat.even_or_odd' n
    · -- `a ^ m + 1 = 2 * k` with `k` odd, and `k` does not count towards the power of two
      obtain ⟨k, hk, hkodd⟩ : ∃ k, a ^ m + 1 = 2 * k ∧ k % 2 = 1 := by
        have := pow_mod_four ha m
        exact ⟨(a ^ m + 1) / 2, by omega, by omega⟩
      have hcop : Nat.Coprime (2 ^ p) k :=
        Nat.Coprime.pow_left p (Nat.coprime_two_left.mpr (Nat.odd_iff.mpr hkodd))
      rw [geomSum_two_mul, hk, pow_succ', mul_left_comm, Nat.mul_dvd_mul_iff_left Nat.two_pos,
        Nat.mul_dvd_mul_iff_left Nat.two_pos, hcop.dvd_mul_right, ih]
    · -- an odd sum and an odd count
      have hsum := geomSum_mod_four ha (2 * m + 1)
      have h2 : 2 ∣ 2 ^ (p + 1) := dvd_pow_self 2 (Nat.succ_ne_zero p)
      constructor
      · intro h
        have := Nat.dvd_trans h2 h
        omega
      · intro h
        have := Nat.dvd_trans h2 h
        omega

/-! ## Iterating the step -/

/-- `n` steps from `x` reach `a ^ n * x + c * (1 + a + ⋯ + a ^ (n - 1))`, modulo `2 ^ p`. -/
theorem iterate_lcgStep (n x : ℕ) :
    (lcgStep a c p)^[n] (x % 2 ^ p) = (a ^ n * x + c * geomSum a n) % 2 ^ p := by
  induction n with
  | zero => simp [geomSum]
  | succ n ih =>
    rw [Function.iterate_succ_apply', ih, lcgStep, Nat.add_mod, Nat.mul_mod, Nat.mod_mod,
      ← Nat.mul_mod, ← Nat.add_mod, geomSum_succ]
    congr 1
    ring

theorem iterate_lcgStep_lt (n x : ℕ) : (lcgStep a c p)^[n] (x % 2 ^ p) < 2 ^ p := by
  rw [iterate_lcgStep]
  exact Nat.mod_lt _ (Nat.two_pow_pos p)

/-- No residue comes back in fewer than `2 ^ p` steps. -/
theorem iterate_lcgStep_ne (ha : a % 4 = 1) (hc : c % 2 = 1) {n : ℕ} (hn0 : 0 < n)
    (hn : n < 2 ^ p) (x : ℕ) : (lcgStep a c p)^[n] (x % 2 ^ p) ≠ x % 2 ^ p := by
  intro heq
  rw [iterate_lcgStep] at heq
  -- `a ^ n = 1 + (a - 1) * geomSum a n`, so the steps add `geomSum a n * ((a - 1) * x + c)`
  have hpow : a ^ n = geomSum a n * (a - 1) + 1 := by
    have := geom_sum_mul_add (a - 1) n
    rw [Nat.sub_add_cancel (by omega : 1 ≤ a)] at this
    rw [← this, geomSum]
  have hsplit : a ^ n * x + c * geomSum a n = x + geomSum a n * ((a - 1) * x + c) := by
    rw [hpow]
    ring
  have hdvd : 2 ^ p ∣ geomSum a n * ((a - 1) * x + c) := by
    rw [hsplit] at heq
    exact Nat.modEq_zero_iff_dvd.mp (Nat.ModEq.add_left_cancel' x (by rw [add_zero]; exact heq))
  -- the factor `(a - 1) * x + c` is odd
  have hodd : ((a - 1) * x + c) % 2 = 1 := by
    obtain ⟨k, hk⟩ : ∃ k, a - 1 = 2 * k := ⟨(a - 1) / 2, by omega⟩
    rw [hk, mul_assoc]
    omega
  have hcop : Nat.Coprime (2 ^ p) ((a - 1) * x + c) :=
    Nat.Coprime.pow_left p (Nat.coprime_two_left.mpr (Nat.odd_iff.mpr hodd))
  have hn' := (two_pow_dvd_geomSum_iff ha p n).mp (hcop.dvd_mul_right.mp hdvd)
  exact absurd (Nat.le_of_dvd hn0 hn') (Nat.not_le_of_lt hn)

/-- The first `2 ^ p` steps meet distinct residues. -/
theorem iterate_lcgStep_injOn (ha : a % 4 = 1) (hc : c % 2 = 1) (x : ℕ) :
    Set.InjOn (fun n => (lcgStep a c p)^[n] (x % 2 ^ p)) (range (2 ^ p)) := by
  -- a residue met at `i` and again at `j > i` comes back after `j - i` steps
  have hne : ∀ i j, i < j → j < 2 ^ p →
      (lcgStep a c p)^[i] (x % 2 ^ p) ≠ (lcgStep a c p)^[j] (x % 2 ^ p) := by
    intro i j hij hj heq
    set y := (lcgStep a c p)^[i] (x % 2 ^ p) with hy
    have hymod : y % 2 ^ p = y := Nat.mod_eq_of_lt (iterate_lcgStep_lt i x)
    have hback : (lcgStep a c p)^[j - i] (y % 2 ^ p) = y % 2 ^ p := by
      rw [hymod, hy, ← Function.iterate_add_apply, Nat.sub_add_cancel hij.le, ← hy, heq]
    exact iterate_lcgStep_ne ha hc (by omega) (by omega) y hback
  intro i hi j hj heq
  rw [coe_range, Set.mem_Iio] at hi hj
  rcases Nat.lt_trichotomy i j with hij | hij | hij
  · exact absurd heq (hne i j hij hj)
  · exact hij
  · exact absurd heq.symm (hne j i hij hi)

/-- **Full period.** From any start, the generator meets every residue below `2 ^ p` within
`2 ^ p` steps. -/
theorem exists_iterate_lcgStep_eq (ha : a % 4 = 1) (hc : c % 2 = 1) (x : ℕ) {y : ℕ}
    (hy : y < 2 ^ p) : ∃ n < 2 ^ p, (lcgStep a c p)^[n] (x % 2 ^ p) = y := by
  have hsub :
      (range (2 ^ p)).image (fun n => (lcgStep a c p)^[n] (x % 2 ^ p)) ⊆ range (2 ^ p) := by
    intro z hz
    obtain ⟨n, -, rfl⟩ := mem_image.mp hz
    exact mem_range.mpr (iterate_lcgStep_lt n x)
  have hcard : (range (2 ^ p)).card ≤
      ((range (2 ^ p)).image fun n => (lcgStep a c p)^[n] (x % 2 ^ p)).card := by
    rw [card_image_of_injOn (iterate_lcgStep_injOn ha hc x)]
  have hall := eq_of_subset_of_card_le hsub hcard
  have hmem : y ∈ (range (2 ^ p)).image fun n => (lcgStep a c p)^[n] (x % 2 ^ p) := by
    rw [hall]
    exact mem_range.mpr hy
  obtain ⟨n, hn, hyn⟩ := mem_image.mp hmem
  exact ⟨n, mem_range.mp hn, hyn⟩

end FullPeriod
