import Mathlib.Data.Nat.Bitwise
import Mathlib.Data.Nat.Size

/-!
# Bit fields as arithmetic

Byte-oriented encoders cut a group of bytes into fields with constant shifts and masks, and
decoders glue the fields back with `|`. Read as numbers, every such step is a division, a
remainder or a sum:

* a mask made of the bits `k .. j-1` keeps the bits below `j` of a value whose bits below `k`
  are clear (`and_eq_mod_of_mask`; with `k = 0` this is the usual low mask);
* `|` of a value with its low `k` bits clear and a value below `2 ^ k` is their sum
  (`or_eq_add_of_lt`).

The mask and the bounds are arguments, so that a use names the literal it rewrites and
discharges the side conditions with `norm_num` and `omega`.

Rounding up to a power of two ORs a value with itself shifted by `1, 2, 4, …`: after the shifts
up to `2 ^ (r - 1)`, bit `i` is set exactly when one of the bits `i, …, i + 2 ^ r - 1` of the
value is (`SmearedBits`), which for a value below `2 ^ 2 ^ r` is `2 ^ size - 1`
(`SmearedBits.eq`).
-/

namespace BitFields

/-- A mask of the bits `k .. j-1` keeps the bits below `j` of a value whose bits below `k` are
clear. -/
theorem and_eq_mod_of_mask {y : ℕ} (m k j : ℕ) (hm : m = 2 ^ j - 2 ^ k) (hy : y % 2 ^ k = 0)
    (hkj : k ≤ j) : y &&& m = y % 2 ^ j := by
  obtain ⟨x, rfl⟩ : 2 ^ k ∣ y := Nat.dvd_of_mod_eq_zero hy
  -- the mask is the low mask of width `j - k`, moved up by `k`
  have hm' : m = (2 ^ (j - k) - 1) <<< k := by
    rw [hm, Nat.shiftLeft_eq, Nat.sub_mul, one_mul, ← pow_add, Nat.sub_add_cancel hkj]
  have hj : 2 ^ j = 2 ^ (j - k) * 2 ^ k := by rw [← pow_add, Nat.sub_add_cancel hkj]
  rw [hm', mul_comm, ← Nat.shiftLeft_eq, ← Nat.shiftLeft_and_distrib,
    Nat.and_two_pow_sub_one_eq_mod, Nat.shiftLeft_eq, Nat.shiftLeft_eq, hj,
    Nat.mul_mod_mul_right]

/-- Two fields that do not overlap are joined by `|` as by `+`. -/
theorem or_eq_add_of_lt {a b : ℕ} (k : ℕ) (ha : a % 2 ^ k = 0) (hb : b < 2 ^ k) :
    a ||| b = a + b := by
  obtain ⟨c, rfl⟩ : 2 ^ k ∣ a := Nat.dvd_of_mod_eq_zero ha
  rw [mul_comm, ← Nat.shiftLeft_eq, Nat.shiftLeft_add_eq_or_of_lt hb]

/-- A mask of the bits `k .. j-1` clears the bits below `k` of a value below `2 ^ j`. -/
theorem and_high_mask {y k j : ℕ} (hy : y < 2 ^ j) (hkj : k ≤ j) :
    y &&& (2 ^ j - 2 ^ k) = y / 2 ^ k * 2 ^ k := by
  have hm : 2 ^ j - 2 ^ k = (2 ^ (j - k) - 1) <<< k := by
    rw [Nat.shiftLeft_eq, Nat.sub_mul, one_mul, ← pow_add, Nat.sub_add_cancel hkj]
  rw [hm, ← Nat.shiftRight_eq_div_pow, ← Nat.shiftLeft_eq]
  apply Nat.eq_of_testBit_eq
  intro i
  rw [Nat.testBit_and, Nat.testBit_shiftLeft, Nat.testBit_shiftLeft, Nat.testBit_two_pow_sub_one,
    Nat.testBit_shiftRight]
  -- bit `i` of both sides is bit `i` of `y` from `k` on, where bits from `j` on are clear
  by_cases hik : k ≤ i
  · rw [Nat.add_sub_cancel' hik]
    by_cases hij : i < j
    · simp [hik, show i - k < j - k by omega]
    · have hb : y.testBit i = false :=
        Nat.testBit_lt_two_pow (hy.trans_le (Nat.pow_le_pow_right Nat.two_pos (by omega)))
      simp [hik, hb]
  · simp [hik]

/-- The bits of `n` from `k` on, as a number, are `size n - k` long. -/
theorem size_div_two_pow (n k : ℕ) : (n / 2 ^ k).size = n.size - k := by
  apply le_antisymm
  · -- `n < 2 ^ size n`
    refine Nat.size_le.mpr ((Nat.div_lt_iff_lt_mul (Nat.two_pow_pos k)).mpr ?_)
    rw [← pow_add]
    exact (Nat.lt_size_self n).trans_le (Nat.pow_le_pow_right Nat.two_pos (by omega))
  · -- `2 ^ (size n - 1) ≤ n` when `k < size n`
    rcases Nat.lt_or_ge k n.size with hk | hk
    · have h : n.size - k - 1 < (n / 2 ^ k).size := by
        refine Nat.lt_size.mpr ((Nat.le_div_iff_mul_le (Nat.two_pow_pos k)).mpr ?_)
        rw [← pow_add, show n.size - k - 1 + k = n.size - 1 by omega]
        exact Nat.lt_size.mp (by omega)
      omega
    · omega

/-! ## Smearing the top bit down -/

/-- `x ||| x >>> k` has bit `i` when `x` has bit `i` or bit `i + k`. -/
theorem testBit_or_shiftRight (x k i : ℕ) :
    (x ||| x >>> k).testBit i = (x.testBit i || x.testBit (i + k)) := by
  rw [Nat.testBit_or, Nat.testBit_shiftRight, Nat.add_comm k i]

/-- Bit `i` of `y` is set exactly when one of the bits `i, …, i + 2 ^ r - 1` of `x` is. -/
def SmearedBits (x r y : ℕ) : Prop :=
  ∀ i, y.testBit i = true ↔ ∃ d < 2 ^ r, x.testBit (i + d) = true

theorem smearedBits_zero (x : ℕ) : SmearedBits x 0 x := by
  intro i
  constructor
  · intro h
    exact ⟨0, Nat.two_pow_pos 0, h⟩
  · rintro ⟨d, hd, h⟩
    rw [pow_zero, Nat.lt_one_iff] at hd
    rwa [hd] at h

/-- One more shift, by `2 ^ r`, doubles the window. -/
theorem SmearedBits.step {x r y k : ℕ} (h : SmearedBits x r y) (hk : 2 ^ r = k) :
    SmearedBits x (r + 1) (y ||| y >>> k) := by
  intro i
  rw [testBit_or_shiftRight, Bool.or_eq_true, h i, h (i + k), pow_succ]
  subst hk
  constructor
  · rintro (⟨d, hd, hb⟩ | ⟨d, hd, hb⟩)
    · exact ⟨d, by omega, hb⟩
    · exact ⟨2 ^ r + d, by omega, by rwa [← Nat.add_assoc]⟩
  · rintro ⟨d, hd, hb⟩
    by_cases hlt : d < 2 ^ r
    · exact .inl ⟨d, hlt, hb⟩
    · refine .inr ⟨d - 2 ^ r, by omega, ?_⟩
      rwa [Nat.add_assoc, Nat.add_sub_cancel' (by omega)]

/-- A window as wide as `x` has bits smears `x` into `2 ^ size x - 1`. -/
theorem SmearedBits.eq {x r y : ℕ} (h : SmearedBits x r y) (hx : x < 2 ^ 2 ^ r) :
    y = 2 ^ x.size - 1 := by
  apply Nat.eq_of_testBit_eq
  intro i
  rw [Nat.testBit_two_pow_sub_one, Bool.eq_iff_iff, decide_eq_true_iff, h i]
  constructor
  · -- a set bit of `x` lies below its size
    rintro ⟨d, -, hb⟩
    by_contra hge
    have hlt : x < 2 ^ (i + d) :=
      lt_of_lt_of_le (Nat.lt_size_self x) (Nat.pow_le_pow_right Nat.two_pos (by omega))
    rw [Nat.testBit_lt_two_pow hlt] at hb
    cases hb
  · -- the top bit of `x`, at `log2 x = size x - 1`, is within the window
    intro hi
    have hx0 : x ≠ 0 := by
      rintro rfl
      rw [Nat.size_zero] at hi
      cases hi
    have hlog : x.log2 + 1 = x.size := by
      apply le_antisymm
      · exact (Nat.log2_lt hx0).mpr (Nat.lt_size_self x)
      · exact Nat.size_le.mpr ((Nat.log2_lt hx0).mp (Nat.lt_succ_self _))
    have hlt : x.log2 < 2 ^ r := (Nat.log2_lt hx0).mpr hx
    refine ⟨x.log2 - i, by omega, ?_⟩
    rw [Nat.add_sub_cancel' (by omega)]
    exact Nat.testBit_log2 hx0

end BitFields
