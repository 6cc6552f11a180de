import Mathlib.Data.BitVec
import Mathlib.Data.Int.Init

/-!
# Two's complement words

Facts about `BitVec` read as signed machine words, of any width, in the forms that tagged
integer code needs:

* `toInt_eq_ite` reads `toInt` off `toNat` with the sign threshold as a natural power, so
  that after `generalize` every width is a plain variable for `omega`;
* the arithmetic shift right by one halves (`toInt_sshiftRight_one`), shifting left by one and
  setting bit 0 doubles and adds one (`toInt_shiftLeft_one_or_one`), and flipping the sign bit
  moves the value by half the range (`toInt_xor_intMin`);
* a product computed in a word twice as wide is exact (`toInt_signExtend_mul_signExtend`);
* truncating division (C's `/`) compared with a bound (`tdiv_lt_iff_lt_mul`,
  `lt_tdiv_iff_mul_lt`), which is how overflow tests are written without overflowing, and
  turned into floored division by one correction step (`fdiv_fmod_of_tdiv_tmod`);
* an integer wrapped to a signed word (`wrapSigned`), which is what C's signed arithmetic gives
  when the compiler is told that it wraps, and which is the exact result when that fits
  (`wrapSigned_of_range`).
-/

namespace TwosComplement

open BitVec

/-! ## Reading `toInt` -/

/-- A number below `2 * P` loses `P` to its residue exactly when it reaches `P`. -/
theorem mod_eq_ite_of_lt_two_mul {x P : ℕ} (h : x < 2 * P) :
    x % P = if P ≤ x then x - P else x := by
  split
  · rw [Nat.mod_eq_sub_mod ‹_›, Nat.mod_eq_of_lt (by omega)]
  · exact Nat.mod_eq_of_lt (by omega)

/-- Flipping bit `k` of a number below `2 ^ (k + 1)` removes or adds `2 ^ k`. -/
theorem xor_two_pow_of_lt {n k : ℕ} (h : n < 2 * 2 ^ k) :
    n ^^^ 2 ^ k = if 2 ^ k ≤ n then n - 2 ^ k else n + 2 ^ k := by
  have hpos := Nat.two_pow_pos k
  have hsplit := Nat.div_add_mod (n ^^^ 2 ^ k) (2 ^ k)
  rw [Nat.xor_div_two_pow, Nat.xor_mod_two_pow, Nat.div_self hpos, Nat.mod_self,
    Nat.xor_zero] at hsplit
  rw [← hsplit]
  split
  · rename_i hge
    have hq : n / 2 ^ k = 1 := Nat.div_eq_of_lt_le (by omega) (by omega)
    rw [hq, Nat.mod_eq_sub_mod hge, Nat.mod_eq_of_lt (by omega), Nat.xor_self,
      Nat.mul_zero, Nat.zero_add]
  · rename_i hlt
    rw [Nat.div_eq_of_lt (by omega), Nat.mod_eq_of_lt (by omega), Nat.zero_xor, Nat.mul_one]
    omega

theorem pow_eq_natCast (k : ℕ) : (2 : ℤ) ^ k = ((2 ^ k : ℕ) : ℤ) := by
  push_cast
  rfl

variable {k : ℕ}

/-- The signed value of a `k + 1` bit word, with the threshold `2 ^ k` as a natural number. -/
theorem toInt_eq_ite (x : BitVec (k + 1)) :
    x.toInt = if x.toNat < 2 ^ k then (x.toNat : ℤ) else x.toNat - 2 * ((2 ^ k : ℕ) : ℤ) := by
  rw [toInt_eq_toNat_cond, Nat.pow_succ']
  by_cases h : x.toNat < 2 ^ k
  · rw [if_pos (by omega), if_pos h]
  · rw [if_neg (by omega), if_neg h]
    push_cast
    rfl

/-! ## Shifts and the sign bit -/

variable {w : ℕ}

/-- The arithmetic shift right by one is floor division by two. -/
theorem toInt_sshiftRight_one (x : BitVec w) : (x.sshiftRight 1).toInt = x.toInt / 2 := by
  rw [toInt_sshiftRight, Int.shiftRight_eq_div_pow]
  rfl

/-- Shifting left by one and setting bit 0 is `2 * i + 1`, for `i` in half the range. -/
theorem toInt_shiftLeft_one_or_one (i : BitVec (k + 2)) (hlo : -2 ^ k ≤ i.toInt)
    (hhi : i.toInt < 2 ^ k) : ((i <<< 1) ||| 1).toInt = 2 * i.toInt + 1 := by
  have hpow : 2 ^ (k + 2) = 2 * 2 ^ (k + 1) := Nat.pow_succ'
  have hpow' : 2 ^ (k + 1) = 2 * 2 ^ k := Nat.pow_succ'
  have hshift : (i <<< 1).toNat = 2 * (i.toNat % 2 ^ (k + 1)) := by
    rw [toNat_shiftLeft, Nat.shiftLeft_eq, pow_one, hpow, Nat.mul_comm, Nat.mul_mod_mul_left]
  -- setting bit 0 of an even number adds one
  have hor : ((i <<< 1) ||| 1).toNat = 2 * (i.toNat % 2 ^ (k + 1)) + 1 := by
    have hone : (1 : BitVec (k + 2)).toNat = 1 := toNat_one (by omega)
    have h := Nat.two_pow_add_eq_or_of_lt (show 1 < 2 ^ 1 by decide) (i.toNat % 2 ^ (k + 1))
    rw [pow_one] at h
    rw [toNat_or, hshift, hone, h]
  have hmod := mod_eq_ite_of_lt_two_mul (hpow ▸ i.isLt)
  have hi := i.isLt
  rw [toInt_eq_ite (i <<< 1 ||| 1), hor, toInt_eq_ite i]
  rw [toInt_eq_ite i, pow_eq_natCast] at hlo hhi
  rw [hpow] at hi
  rw [hpow'] at hlo hhi hmod hi ⊢
  generalize i.toNat = n at hlo hhi hmod hi ⊢
  generalize 2 ^ k = P at hlo hhi hmod hi ⊢
  split_ifs at hlo hhi hmod ⊢ <;> omega

/-- Flipping the sign bit moves a value by half the range, towards the other sign. -/
theorem toInt_xor_intMin (x : BitVec (w + 1)) :
    (x ^^^ intMin (w + 1)).toInt = if x.toInt < 0 then x.toInt + 2 ^ w else x.toInt - 2 ^ w := by
  have hpow : 2 ^ (w + 1) = 2 * 2 ^ w := Nat.pow_succ'
  have hx := x.isLt
  rw [hpow] at hx
  rw [toInt_eq_ite (x ^^^ intMin (w + 1)), toInt_eq_ite x, toNat_xor,
    toNat_intMin_of_pos (Nat.succ_pos w), Nat.succ_sub_one, xor_two_pow_of_lt hx,
    pow_eq_natCast]
  generalize x.toNat = n at hx ⊢
  generalize 2 ^ w = P at hx ⊢
  split_ifs <;> omega

/-- Truncating a word to a narrower one keeps its value modulo the narrower range. -/
theorem toInt_setWidth_eq_bmod {v : ℕ} (x : BitVec w) (h : v ≤ w) :
    (x.setWidth v).toInt = x.toInt.bmod (2 ^ v) := by
  rw [toInt_setWidth, toInt_eq_toNat_bmod x, Int.bmod_bmod_of_dvd (Nat.pow_dvd_pow 2 h)]

/-! ## Products in a double-width word -/

/-- Two words sign-extended to at least twice their width multiply without overflow. -/
theorem toInt_signExtend_mul_signExtend {v : ℕ} (x y : BitVec w) (hv : 2 * w ≤ v) :
    (x.signExtend v * y.signExtend v).toInt = x.toInt * y.toInt := by
  rw [toInt_mul, toInt_signExtend_of_le (x := x) (show w ≤ v by omega),
    toInt_signExtend_of_le (x := y) (show w ≤ v by omega)]
  have hlo := le_toInt_mul_toInt (x := x) (y := y)
  have hhi := toInt_mul_toInt_le (x := x) (y := y)
  cases w with
  | zero => rw [of_length_zero (x := x), toInt_zero, Int.zero_mul, Int.zero_bmod]
  | succ w =>
    have hexp : (w + 1) * 2 - 2 = 2 * w := by omega
    -- the product's bound `2 ^ (2 * w)` is at most a quarter of the wide range
    have hpow : 2 ^ (2 * w) * 4 ≤ 2 ^ v := by
      calc 2 ^ (2 * w) * 4 = 2 ^ (2 * w + 2) := by rw [Nat.pow_add]
        _ ≤ 2 ^ v := Nat.pow_le_pow_right (by decide) (by omega)
    rw [hexp, pow_eq_natCast] at hlo hhi
    have hA := Nat.two_pow_pos (2 * w)
    apply Int.bmod_eq_of_le
    all_goals
      generalize 2 ^ v = B at hpow ⊢
      generalize 2 ^ (2 * w) = A at hpow hlo hhi hA
      omega

/-! ## Truncating division against a bound -/

/-- A nonnegative `m` divided (truncating) by a positive `c` is below `b` exactly when `m` is
below `b * c`. -/
theorem tdiv_lt_iff_lt_mul {m b c : ℤ} (hm : 0 ≤ m) (hc : 0 < c) :
    m.tdiv c < b ↔ m < b * c := by
  rw [Int.tdiv_eq_ediv_of_nonneg hm]
  exact Int.ediv_lt_iff_lt_mul hc

/-- A nonpositive `m` divided (truncating) by a positive `c` is above `b` exactly when `m` is
above `b * c`. -/
theorem lt_tdiv_iff_mul_lt {m b c : ℤ} (hm : m ≤ 0) (hc : 0 < c) :
    b < m.tdiv c ↔ b * c < m := by
  have h := tdiv_lt_iff_lt_mul (b := -b) (by omega : 0 ≤ -m) hc
  rw [Int.neg_tdiv, Int.neg_mul] at h
  omega

/-- A truncating quotient by a divisor of size at least two is at most half the dividend. -/
theorem two_mul_natAbs_tdiv_le {a b : ℤ} (hb : 2 ≤ b.natAbs) : 2 * (a.tdiv b).natAbs ≤ a.natAbs := by
  rw [Int.natAbs_tdiv]
  calc 2 * (a.natAbs / b.natAbs) ≤ b.natAbs * (a.natAbs / b.natAbs) := Nat.mul_le_mul_right _ hb
    _ ≤ a.natAbs := Nat.mul_div_le a.natAbs b.natAbs

/-- A truncating remainder is smaller than the divisor. -/
theorem natAbs_tmod_lt (a : ℤ) {b : ℤ} (hb : b ≠ 0) : (a.tmod b).natAbs < b.natAbs := by
  rw [Int.natAbs_tmod]
  exact Nat.mod_lt _ (Int.natAbs_pos.mpr hb)

/-- C's truncating quotient and remainder, moved one step down when the remainder's sign is not
the divisor's, are the floored quotient and remainder. -/
theorem fdiv_fmod_of_tdiv_tmod {a b : ℤ} (hb : b ≠ 0) :
    (if (if 0 < b then a.tmod b < 0 else 0 < a.tmod b) then (a.tdiv b - 1, a.tmod b + b)
      else (a.tdiv b, a.tmod b)) = (a.fdiv b, a.fmod b) := by
  rw [Int.fdiv_eq_tdiv, Int.fmod_eq_tmod]
  -- the remainder is zero exactly on divisibility, and otherwise has the dividend's sign
  have hdvd : b ∣ a ↔ a.tmod b = 0 := Int.dvd_iff_tmod_eq_zero
  have hnonneg : 0 ≤ a → 0 ≤ a.tmod b := Int.tmod_nonneg b
  have hnonpos : a ≤ 0 → a.tmod b ≤ 0 := fun h => by
    have h' := Int.tmod_nonneg b (Int.neg_nonneg_of_nonpos h)
    rw [Int.neg_tmod] at h'
    omega
  by_cases hd : b ∣ a
  · -- an exact division: neither pair is corrected
    have h0 := hdvd.mp hd
    rw [if_pos hd, if_pos hd, h0, if_neg (by split <;> omega), Int.sub_zero, Int.add_zero]
  · have h0 : a.tmod b ≠ 0 := fun h => hd (hdvd.mpr h)
    rw [if_neg hd, if_neg hd]
    rcases Int.lt_or_gt_of_ne hb with hneg | hpos
    · rw [Int.sign_eq_neg_one_of_neg hneg]
      by_cases ha : 0 ≤ a
      · simp only [ha, if_true, if_neg (show ¬ 0 ≤ b by omega), if_neg (show ¬ 0 < b by omega),
          if_pos (show 0 < a.tmod b by have := hnonneg ha; omega)]
      · simp only [ha, if_false, if_neg (show ¬ 0 ≤ b by omega), if_neg (show ¬ 0 < b by omega),
          if_neg (show ¬ 0 < a.tmod b by have := hnonpos (by omega); omega), Prod.mk.injEq]
        omega
    · rw [Int.sign_eq_one_of_pos hpos]
      by_cases ha : 0 ≤ a
      · simp only [ha, if_true, if_pos (show 0 ≤ b by omega), if_pos hpos,
          if_neg (show ¬ a.tmod b < 0 by have := hnonneg ha; omega), Prod.mk.injEq]
        omega
      · simp only [ha, if_false, if_pos (show 0 ≤ b by omega), if_pos hpos,
          if_pos (show a.tmod b < 0 by have := hnonpos (by omega); omega),
          Int.natAbs_of_nonneg hpos.le]

/-- Ruby's `divmod` contract for the floored pair: `a = q * b + m`, and the modulo is zero or
has the divisor's sign and is smaller than it. -/
theorem fdiv_fmod_spec {a b : ℤ} (hb : b ≠ 0) :
    a = a.fdiv b * b + a.fmod b ∧ (a.fmod b = 0 ∨ (a.fmod b).sign = b.sign) ∧
      (a.fmod b).natAbs < b.natAbs := by
  have hsum := Int.fmod_add_fdiv_mul a b
  refine ⟨by omega, ?_⟩
  rcases Int.lt_or_gt_of_ne hb with hneg | hpos
  · -- a negative divisor: `b < m <= 0`, read off the positive divisor `-b`
    have hm : a.fmod b = -((-a).fmod (-b)) := by rw [Int.neg_fmod_neg, Int.neg_neg]
    have h0 := Int.fmod_nonneg_of_pos (-a) (Int.neg_pos_of_neg hneg)
    have h1 := Int.fmod_lt_of_pos (-a) (Int.neg_pos_of_neg hneg)
    rw [Int.sign_eq_neg_one_of_neg hneg]
    by_cases hz : a.fmod b = 0
    · exact ⟨Or.inl hz, by omega⟩
    · exact ⟨Or.inr (Int.sign_eq_neg_one_of_neg (by omega)), by omega⟩
  · have h0 := Int.fmod_nonneg_of_pos a hpos
    have h1 := Int.fmod_lt_of_pos a hpos
    rw [Int.sign_eq_one_of_pos hpos]
    by_cases hz : a.fmod b = 0
    · exact ⟨Or.inl hz, by omega⟩
    · exact ⟨Or.inr (Int.sign_eq_one_of_pos (by omega)), by omega⟩

/-! ## Signed arithmetic that wraps -/

/-- The signed `k + 1`-bit word the integer `x` wraps to. -/
def wrapSigned (k : ℕ) (x : ℤ) : ℤ := (x + 2 ^ k) % 2 ^ (k + 1) - 2 ^ k

/-- A result that fits is not changed by the wrap. -/
theorem wrapSigned_of_range {k : ℕ} {x : ℤ} (h1 : -2 ^ k ≤ x) (h2 : x < 2 ^ k) :
    wrapSigned k x = x := by
  have hpow : (2 : ℤ) ^ (k + 1) = 2 * 2 ^ k := by rw [pow_succ, mul_comm]
  unfold wrapSigned
  rw [hpow, Int.emod_eq_of_lt (by omega) (by omega)]
  omega

end TwosComplement
