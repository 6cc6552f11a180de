import Mathlib.Data.UInt

/-!
# Digits (util.c)

`ruby_digit36_to_number_table` reads a byte as a digit of a base up to 36: `0`-`9`, then the
letters of either case from 10 to 35. The table's `-1` entries, which every caller tests
before using the value, are `none` here.

`ruby_scan_digits` reads the longest run of digits of a base into an `unsigned long` (modulo
`2 ^ 64` on LP64) and flags an overflow; it is exact when it does not flag one
(`rubyScanDigits_exact`). A string is a list of bytes; reading past its end sees its
terminating NUL, which is not a digit.
-/

namespace CRuby.Util

/-- `ruby_digit36_to_number_table`, row by row: `0x30..0x39` are 0 to 9, `0x41..0x5a` and
`0x61..0x7a` are 10 to 35, every other byte is -1. -/
def rubyDigit36ToNumberTable (c : UInt8) : Option ℕ :=
  if '0'.toUInt8 ≤ c ∧ c ≤ '9'.toUInt8 then some (c - '0'.toUInt8).toNat
  else if 'A'.toUInt8 ≤ c ∧ c ≤ 'Z'.toUInt8 then some ((c - 'A'.toUInt8).toNat + 10)
  else if 'a'.toUInt8 ≤ c ∧ c ≤ 'z'.toUInt8 then some ((c - 'a'.toUInt8).toNat + 10)
  else none

/-- Every digit the table gives is below 36. -/
theorem rubyDigit36ToNumberTable_lt {c : UInt8} {d : ℕ}
    (h : rubyDigit36ToNumberTable c = some d) : d < 36 := by
  -- each row of the table counts from the first byte of its range: 10 digits, 26 letters
  have hsub {lo hi : UInt8} (hc : lo ≤ c ∧ c ≤ hi) : (c - lo).toNat ≤ hi.toNat - lo.toNat := by
    rw [UInt8.toNat_sub_of_le _ _ hc.1]
    have := UInt8.le_iff_toNat_le.mp hc.2
    omega
  have hdigits : ('9'.toUInt8).toNat - ('0'.toUInt8).toNat = 9 := rfl
  have hupper : ('Z'.toUInt8).toNat - ('A'.toUInt8).toNat = 25 := rfl
  have hlower : ('z'.toUInt8).toNat - ('a'.toUInt8).toNat = 25 := rfl
  unfold rubyDigit36ToNumberTable at h
  split_ifs at h with hd hu hl <;> cases h
  · have := hsub hd
    omega
  · have := hsub hu
    omega
  · have := hsub hl
    omega

/-- One digit more: `acc * base + d`, a byte that is not a digit left out. -/
def digitStep (base acc : ℕ) (c : UInt8) : ℕ :=
  (rubyDigit36ToNumberTable c).elim acc (fun d => acc * base + d)

/-- The value of a list of digit bytes in base `base`, skipping the bytes that are not digits
(the underscores of a literal). -/
def digitsValue (base : ℕ) (l : List UInt8) : ℕ := l.foldl (digitStep base) 0

/-- The loop of `ruby_scan_digits` after `n` digits with the value `ret` and the overflow flag
`ov`; `len` is what is left of an explicit length, negative for a NUL-terminated string.
Returns the value, `*retlen` and `*overflow`. -/
def rubyScanDigitsLoop (base : ℕ) : List UInt8 → ℤ → ℕ → Bool → ℕ → ℕ × ℕ × Bool
  | [], _, ret, ov, n => (ret, n, ov)
  | c :: r, len, ret, ov, n =>
    match rubyDigit36ToNumberTable c with
    | some d =>
      if base ≤ d then (ret, n, ov)
      else
        -- `if (mul_overflow < ret) *overflow = 1; ret *= base; x = ret; ret += d;
        -- if (ret < x) *overflow = 1;` in 64-bit unsigned arithmetic
        let ov := ov || (2 ^ 64 - 1) / base < ret
        let x := ret * base % 2 ^ 64
        let ret := (x + d) % 2 ^ 64
        let ov := ov || decide (ret < x)
        -- `while (len < 0 || --len)`
        if len < 0 then rubyScanDigitsLoop base r len ret ov (n + 1)
        else if len - 1 = 0 then (ret, n + 1, ov)
        else rubyScanDigitsLoop base r (len - 1) ret ov (n + 1)
    | none => (ret, n, ov)

/-- `ruby_scan_digits(str, len, base, &retlen, &overflow)`: the value, `*retlen` and
`*overflow`. -/
def rubyScanDigits (str : List UInt8) (len : ℤ) (base : ℕ) : ℕ × ℕ × Bool :=
  if len = 0 then (0, 0, false) else rubyScanDigitsLoop base str len 0 false 0

/-- A digit that raises neither overflow test of `ruby_scan_digits` is added exactly. -/
theorem scanDigit_exact {ret base d : ℕ} (hd : d < 36) (hmul : ¬(2 ^ 64 - 1) / base < ret)
    (hadd : ¬(ret * base % 2 ^ 64 + d) % 2 ^ 64 < ret * base % 2 ^ 64) :
    (ret * base % 2 ^ 64 + d) % 2 ^ 64 = ret * base + d := by
  -- no wrap in the product: `ret ≤ ULONG_MAX / base`
  have h1 := Nat.div_mul_le_self (2 ^ 64 - 1) base
  have h2 := Nat.mul_le_mul_right base (not_lt.mp hmul)
  have hx : ret * base % 2 ^ 64 = ret * base := Nat.mod_eq_of_lt (by omega)
  rw [hx] at hadd ⊢
  omega

/-- The loop of `ruby_scan_digits` without an overflow: it read `k` digits after the `n`
before, and its value is theirs, exactly. -/
theorem rubyScanDigitsLoop_exact (base : ℕ) (r : List UInt8) (len : ℤ) (ret : ℕ) (ov : Bool)
    (n : ℕ) (hov : (rubyScanDigitsLoop base r len ret ov n).2.2 = false) :
    ov = false ∧ ∃ k, (rubyScanDigitsLoop base r len ret ov n).2.1 = n + k ∧
      (rubyScanDigitsLoop base r len ret ov n).1 = (r.take k).foldl (digitStep base) ret := by
  induction r generalizing len ret ov n with
  | nil => exact ⟨hov, 0, rfl, rfl⟩
  | cons c r ih =>
    rcases htab : rubyDigit36ToNumberTable c with _ | d
    · -- not a digit: the loop stops before it
      simp only [rubyScanDigitsLoop, htab] at hov ⊢
      exact ⟨hov, 0, rfl, rfl⟩
    · by_cases hbd : base ≤ d
      · simp only [rubyScanDigitsLoop, htab, if_pos hbd] at hov ⊢
        exact ⟨hov, 0, rfl, rfl⟩
      · -- a digit: both overflow tests pass, so it is added exactly
        have hd := rubyDigit36ToNumberTable_lt htab
        have hstep : (ov || decide ((2 ^ 64 - 1) / base < ret) ||
            decide ((ret * base % 2 ^ 64 + d) % 2 ^ 64 < ret * base % 2 ^ 64)) = false →
            ov = false ∧ (ret * base % 2 ^ 64 + d) % 2 ^ 64 = digitStep base ret c := by
          intro h
          simp only [Bool.or_eq_false_iff, decide_eq_false_iff_not] at h
          refine ⟨h.1.1, ?_⟩
          rw [scanDigit_exact hd h.1.2 h.2, digitStep, htab]
          rfl
        simp only [rubyScanDigitsLoop, htab, if_neg hbd] at hov ⊢
        split_ifs at hov ⊢ with hlen hlast
        · obtain ⟨hov', k, hk, hv⟩ := ih _ _ _ _ hov
          obtain ⟨hov0, hval⟩ := hstep hov'
          refine ⟨hov0, k + 1, by omega, ?_⟩
          rw [hv, List.take_succ_cons, List.foldl_cons, hval]
        · obtain ⟨hov0, hval⟩ := hstep hov
          refine ⟨hov0, 1, rfl, ?_⟩
          simp only [List.take_succ_cons, List.take_zero, List.foldl_cons, List.foldl_nil]
          exact hval
        · obtain ⟨hov', k, hk, hv⟩ := ih _ _ _ _ hov
          obtain ⟨hov0, hval⟩ := hstep hov'
          refine ⟨hov0, k + 1, by omega, ?_⟩
          rw [hv, List.take_succ_cons, List.foldl_cons, hval]

/-- **`ruby_scan_digits` is exact when it reports no overflow**: its value is that of the
digits it read. -/
theorem rubyScanDigits_exact (str : List UInt8) (len : ℤ) (base : ℕ)
    (hov : (rubyScanDigits str len base).2.2 = false) :
    (rubyScanDigits str len base).1 =
      digitsValue base (str.take (rubyScanDigits str len base).2.1) := by
  unfold rubyScanDigits at hov ⊢
  split_ifs at hov ⊢
  · rfl
  · obtain ⟨-, k, hk, hv⟩ := rubyScanDigitsLoop_exact base str len 0 false 0 hov
    rw [hk, hv, Nat.zero_add]
    rfl

/-! ## A NUL-terminated string -/

/-- `c` is a digit of the radix `b`. -/
def isDigitOf (b : ℕ) (c : UInt8) : Bool :=
  match rubyDigit36ToNumberTable c with
  | some d => decide (d < b)
  | none => false

/-- What the overflow flag of `ruby_scan_digits` says of the value `acc` of the digits read so
far: without a flag, `ret` is `acc` and fits; with one, `acc` does not fit. -/
def ScanInv (ret acc : ℕ) (ov : Bool) : Prop :=
  ov = false ∧ ret = acc ∧ acc < 2 ^ 64 ∨ ov = true ∧ 2 ^ 64 ≤ acc

/-- **One digit keeps the flag exact**: the product test catches `acc * base` past `ULONG_MAX`,
and the wrap test catches the sum, once the product fits. -/
theorem scanInv_step {base ret acc d : ℕ} {ov : Bool} (hb : 1 ≤ base) (hd : d < 36)
    (hinv : ScanInv ret acc ov) :
    ScanInv ((ret * base % 2 ^ 64 + d) % 2 ^ 64) (acc * base + d)
      (ov || decide ((2 ^ 64 - 1) / base < ret) ||
        decide ((ret * base % 2 ^ 64 + d) % 2 ^ 64 < ret * base % 2 ^ 64)) := by
  have hle : acc ≤ acc * base := Nat.le_mul_of_pos_right acc hb
  rcases hinv with ⟨rfl, rfl, hacc⟩ | ⟨rfl, hacc⟩
  · by_cases hmul : (2 ^ 64 - 1) / base < ret
    · -- the product passes `ULONG_MAX`
      have := (Nat.div_lt_iff_lt_mul (by omega)).mp hmul
      refine .inr ⟨?_, by omega⟩
      simp only [Bool.false_or, Bool.or_eq_true, decide_eq_true_eq]
      exact .inl hmul
    · have hfit : ret * base ≤ 2 ^ 64 - 1 := (Nat.le_div_iff_mul_le (by omega)).mp (not_lt.mp hmul)
      rw [Nat.mod_eq_of_lt (show ret * base < 2 ^ 64 by omega)]
      by_cases hwrap : ret * base + d < 2 ^ 64
      · rw [Nat.mod_eq_of_lt hwrap]
        refine .inl ⟨?_, rfl, hwrap⟩
        simp only [Bool.false_or, Bool.or_eq_false_iff, decide_eq_false_iff_not]
        exact ⟨hmul, by omega⟩
      · -- the sum wraps below the product
        have hlt : (ret * base + d) % 2 ^ 64 < ret * base := by
          rw [Nat.mod_eq_sub_mod (not_lt.mp hwrap), Nat.mod_eq_of_lt (by omega)]
          omega
        refine .inr ⟨?_, by omega⟩
        simp only [Bool.false_or, Bool.or_eq_true, decide_eq_true_eq]
        exact .inr hlt
  · exact .inr ⟨by simp, by omega⟩

/-- The loop of `ruby_scan_digits` on a NUL-terminated string (`len < 0`) reads the whole run of
digits at its start, and its flag says whether their value passes `ULONG_MAX`. -/
theorem rubyScanDigitsLoop_spec (base : ℕ) (hb : 1 ≤ base) (r : List UInt8) (ret acc n : ℕ)
    (ov : Bool) (hinv : ScanInv ret acc ov) :
    (rubyScanDigitsLoop base r (-1) ret ov n).2.1 = n + (r.takeWhile (isDigitOf base)).length ∧
      ScanInv (rubyScanDigitsLoop base r (-1) ret ov n).1
        ((r.takeWhile (isDigitOf base)).foldl (digitStep base) acc)
        (rubyScanDigitsLoop base r (-1) ret ov n).2.2 := by
  induction r generalizing ret acc n ov with
  | nil => exact ⟨rfl, hinv⟩
  | cons c r ih =>
    rcases htab : rubyDigit36ToNumberTable c with _ | d
    · -- not a digit: the run is empty
      have hc : isDigitOf base c = false := by rw [isDigitOf, htab]
      simp only [rubyScanDigitsLoop, htab, List.takeWhile_cons, hc]
      exact ⟨rfl, hinv⟩
    · by_cases hbd : base ≤ d
      · have hc : isDigitOf base c = false := by
          rw [isDigitOf, htab]
          simp [hbd]
        simp only [rubyScanDigitsLoop, htab, if_pos hbd, List.takeWhile_cons, hc]
        exact ⟨rfl, hinv⟩
      · -- a digit of the radix: one step, then the rest of the run
        have hc : isDigitOf base c = true := by
          rw [isDigitOf, htab, decide_eq_true_eq]
          omega
        have hstep := scanInv_step hb (rubyDigit36ToNumberTable_lt htab) hinv
        have hacc : acc * base + d = digitStep base acc c := by rw [digitStep, htab]; rfl
        rw [hacc] at hstep
        obtain ⟨h1, h2⟩ := ih _ _ (n + 1) _ hstep
        simp only [rubyScanDigitsLoop, htab, if_neg hbd, List.takeWhile_cons, hc, ite_true,
          if_pos (show (-1 : ℤ) < 0 by decide), List.foldl_cons, List.length_cons]
        exact ⟨by rw [h1]; omega, h2⟩

/-- **`ruby_scan_digits(str, -1, base, ...)`** reads the run of digits at the start of a
NUL-terminated string; it flags an overflow exactly when their value passes `ULONG_MAX`, and
otherwise returns that value. -/
theorem rubyScanDigits_spec (str : List UInt8) (base : ℕ) (hb : 1 ≤ base) :
    (rubyScanDigits str (-1) base).2.1 = (str.takeWhile (isDigitOf base)).length ∧
      ScanInv (rubyScanDigits str (-1) base).1
        (digitsValue base (str.takeWhile (isDigitOf base))) (rubyScanDigits str (-1) base).2.2 := by
  have h := rubyScanDigitsLoop_spec base hb str 0 0 0 false (.inl ⟨rfl, rfl, Nat.two_pow_pos 64⟩)
  rw [Nat.zero_add] at h
  rw [rubyScanDigits, if_neg (by decide)]
  exact h

end CRuby.Util
