import CRuby.Lib.Binary64

/-!
# The bits of a binary64

A double is stored as a sign bit and 63 bits below it: an 11-bit exponent field and a 52-bit
fraction. Read as a natural number, those 63 bits are the *magnitude bits*; an exponent field of
all ones stands for an infinity or a NaN, and any other for a finite value. C code that
reinterprets a double as a 64-bit integer through a union sees these bits.

* `magValue b` is the finite value the magnitude bits `b` stand for, and `magBits x` the bits of
  the non-negative double `x`.
* On a normal double `m * 2 ^ e` the bits are the biased exponent and the fraction without its
  leading one (`magBits_normal`), and they stand for the double again (`magValue_normal`).
-/

namespace Binary64

/-- The magnitude bits of an infinity: the exponent field all ones, the fraction zero. -/
def infBits : ℕ := 2047 * 2 ^ 52

/-- The value of the magnitude bits `b` of a finite double: subnormal when the exponent field is
zero, normal otherwise. -/
def magValue (b : ℕ) : ℚ :=
  if b / 2 ^ 52 = 0 then (b % 2 ^ 52 : ℕ) * 2 ^ (-1074 : ℤ)
  else (2 ^ 52 + b % 2 ^ 52 : ℕ) * 2 ^ (((b / 2 ^ 52 : ℕ) : ℤ) - 1075)

/-- The magnitude bits of the non-negative double `x`: the fraction in units of the least
subnormal below `2 ^ -1022`, and above it the biased exponent followed by the fraction without
its leading one. -/
def magBits (x : ℚ) : ℕ :=
  if x < 2 ^ (-1022 : ℤ) then ⌊x * 2 ^ (1074 : ℤ)⌋₊
  else (Int.log 2 x + 1023).toNat * 2 ^ 52 + (⌊x * 2 ^ (52 - Int.log 2 x)⌋₊ - 2 ^ 52)

/-- The magnitude bits of the normal double `m * 2 ^ e`, `2 ^ 52 ≤ m < 2 ^ 53`: the biased
exponent `e + 52 + 1023` and the fraction `m - 2 ^ 52`. -/
theorem magBits_normal {m : ℕ} {e : ℤ} (hm1 : 2 ^ 52 ≤ m) (hm2 : m < 2 ^ 53) (he : -1074 ≤ e) :
    magBits (m * 2 ^ e) = (e + 1075).toNat * 2 ^ 52 + (m - 2 ^ 52) := by
  have hpos : (0 : ℚ) < 2 ^ e := zpow_pos two_pos e
  have hlo : (2 : ℚ) ^ (e + 52) ≤ m * 2 ^ e := by
    rw [zpow_add₀ two_ne_zero, mul_comm]
    gcongr
    exact_mod_cast hm1
  have hhi : (m : ℚ) * 2 ^ e < 2 ^ (e + 52 + 1) := by
    rw [show e + 52 + 1 = e + 53 by ring, zpow_add₀ two_ne_zero, mul_comm]
    gcongr
    exact_mod_cast hm2
  have hnorm : ¬(m : ℚ) * 2 ^ e < 2 ^ (-1022 : ℤ) :=
    not_lt.mpr ((zpow_le_zpow_right₀ one_le_two (by omega)).trans hlo)
  have hfrac : ⌊(m : ℚ) * 2 ^ e * 2 ^ (52 - (e + 52))⌋₊ = m := by
    rw [mul_assoc, ← zpow_add₀ two_ne_zero, show e + (52 - (e + 52)) = 0 by ring, zpow_zero,
      mul_one, Nat.floor_natCast]
  rw [magBits, if_neg hnorm, log_eq_of_bounds hlo hhi, hfrac, show e + 52 + 1023 = e + 1075 by ring]

/-- The magnitude bits of a normal double stand for its value. -/
theorem magValue_normal {m : ℕ} {e : ℤ} (hm1 : 2 ^ 52 ≤ m) (hm2 : m < 2 ^ 53) (he : -1074 ≤ e) :
    magValue ((e + 1075).toNat * 2 ^ 52 + (m - 2 ^ 52)) = m * 2 ^ e := by
  have hdiv : ((e + 1075).toNat * 2 ^ 52 + (m - 2 ^ 52)) / 2 ^ 52 = (e + 1075).toNat := by omega
  have hmod : ((e + 1075).toNat * 2 ^ 52 + (m - 2 ^ 52)) % 2 ^ 52 = m - 2 ^ 52 := by omega
  have hE : (e + 1075).toNat ≠ 0 := by omega
  rw [magValue, hdiv, hmod, if_neg hE, Nat.add_sub_cancel' hm1, Int.toNat_of_nonneg (by omega),
    add_sub_cancel_right]

end Binary64
