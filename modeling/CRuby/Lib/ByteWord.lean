import CRuby.Lib.BitFields
import Mathlib.Tactic.Ring

/-!
# Bytes in a 64-bit word

A 64-bit word holds eight bytes in lanes `0 .. 7`, and reading memory puts the byte at address
`p + i` in lane `i`. On a little-endian machine lane `i` is the bits from `8 * i`, on a
big-endian one the bits from `8 * (7 - i)`. `window be bs q off k` is the word whose lanes
`off .. off + k - 1` hold the bytes `q .. q + k - 1` of `bs` and whose other lanes are zero;
bytes past the end of `bs` read as zero. Words are natural numbers below `2 ^ 64` here, and the
shifts are those of a 64-bit word: a left shift drops what leaves the word.

Code that rebuilds words from unaligned memory moves bytes between lanes with shifts and joins
the pieces with `|`. On windows:

* `shiftFront be m` (`>> 8m` little-endian, `<< 8m` big-endian) moves each byte `m` lanes
  towards lane `0` and drops those that leave the word (`shiftFront_window`,
  `shiftFront_window_full`);
* `shiftBack be m` moves each byte `m` lanes towards lane `7` (`shiftBack_window`,
  `shiftBack_window_full`);
* `|` of the windows of adjacent bytes in adjacent lanes is the window of all of them
  (`window_or`).

Both orders go through the same statements; a window is a number of `k` bytes, read
little- or big-endian (`leVal`, `beVal`), times the power of two of its lowest lane.
-/

namespace ByteWord

/-- The byte at index `i`, zero past the end. -/
def byteAt (bs : List UInt8) (i : ℕ) : ℕ := (bs.getD i 0).toNat

/-- The `k` bytes from index `q` read little-endian: the first byte least significant. -/
def leVal (bs : List UInt8) : (q k : ℕ) → ℕ
  | _, 0 => 0
  | q, k + 1 => byteAt bs q + 2 ^ 8 * leVal bs (q + 1) k

/-- The `k` bytes from index `q` read big-endian: the first byte most significant. -/
def beVal (bs : List UInt8) : (q k : ℕ) → ℕ
  | _, 0 => 0
  | q, k + 1 => byteAt bs q * 2 ^ (8 * k) + beVal bs (q + 1) k

/-- The word whose lanes `off .. off + k - 1` hold the bytes `q .. q + k - 1`. -/
def window (be : Bool) (bs : List UInt8) (q off k : ℕ) : ℕ :=
  if be then beVal bs q k * 2 ^ (8 * (8 - off - k)) else leVal bs q k * 2 ^ (8 * off)

/-- Move every byte of a 64-bit word `m` lanes towards lane `0`. -/
def shiftFront (be : Bool) (m x : ℕ) : ℕ :=
  if be then (x <<< (8 * m)) % 2 ^ 64 else x >>> (8 * m)

/-- Move every byte of a 64-bit word `m` lanes towards lane `7`. -/
def shiftBack (be : Bool) (m x : ℕ) : ℕ :=
  if be then x >>> (8 * m) else (x <<< (8 * m)) % 2 ^ 64

variable {bs : List UInt8}

/-! ## Byte strings as numbers -/

/-- Every byte, checked one by one: the property of `UInt8.ofNat n` for each `n < 256` is the
property of every byte. -/
theorem uint8_forall {P : UInt8 → Prop} (h : ∀ n < 256, P (UInt8.ofNat n)) (b : UInt8) : P b := by
  have hb := h b.toNat b.toNat_lt
  rwa [UInt8.ofNat_toNat] at hb

theorem byteAt_lt (bs : List UInt8) (i : ℕ) : byteAt bs i < 2 ^ 8 := (bs.getD i 0).toNat_lt

theorem leVal_lt (q k : ℕ) : leVal bs q k < 2 ^ (8 * k) := by
  induction k generalizing q with
  | zero => simp [leVal]
  | succ k ih =>
    have hb := byteAt_lt bs q
    have hv := ih (q + 1)
    rw [leVal, show 8 * (k + 1) = 8 + 8 * k by ring, pow_add]
    calc byteAt bs q + 2 ^ 8 * leVal bs (q + 1) k < 2 ^ 8 + 2 ^ 8 * leVal bs (q + 1) k := by
          omega
      _ = 2 ^ 8 * (leVal bs (q + 1) k + 1) := by ring
      _ ≤ 2 ^ 8 * 2 ^ (8 * k) := Nat.mul_le_mul_left _ hv

theorem beVal_lt (q k : ℕ) : beVal bs q k < 2 ^ (8 * k) := by
  induction k generalizing q with
  | zero => simp [beVal]
  | succ k ih =>
    have hb := byteAt_lt bs q
    have hv := ih (q + 1)
    rw [beVal, show 8 * (k + 1) = 8 + 8 * k by ring, pow_add]
    calc byteAt bs q * 2 ^ (8 * k) + beVal bs (q + 1) k
        < byteAt bs q * 2 ^ (8 * k) + 2 ^ (8 * k) := by omega
      _ = (byteAt bs q + 1) * 2 ^ (8 * k) := by ring
      _ ≤ 2 ^ 8 * 2 ^ (8 * k) := Nat.mul_le_mul_right _ hb

/-- The first `j` bytes are the low part of a little-endian value. -/
theorem leVal_add (q j k : ℕ) :
    leVal bs q (j + k) = leVal bs q j + 2 ^ (8 * j) * leVal bs (q + j) k := by
  induction j generalizing q with
  | zero => simp [leVal]
  | succ j ih =>
    rw [Nat.add_right_comm, leVal, leVal, ih, show q + 1 + j = q + (j + 1) by ring]
    ring

/-- The first `j` bytes are the high part of a big-endian value. -/
theorem beVal_add (q j k : ℕ) :
    beVal bs q (j + k) = beVal bs q j * 2 ^ (8 * k) + beVal bs (q + j) k := by
  induction j generalizing q with
  | zero => simp [beVal]
  | succ j ih =>
    rw [Nat.add_right_comm, beVal, beVal, ih, show q + 1 + j = q + (j + 1) by ring,
      show 8 * (j + k) = 8 * j + 8 * k by ring, pow_add]
    ring

/-- A value of `n` bits moved up by `s` bits stays in the word when `n + s ≤ 64`. -/
theorem mul_two_pow_lt {v n s : ℕ} (hv : v < 2 ^ n) (h : n + s ≤ 64) : v * 2 ^ s < 2 ^ 64 :=
  calc v * 2 ^ s < 2 ^ n * 2 ^ s := Nat.mul_lt_mul_of_pos_right hv (Nat.two_pow_pos s)
    _ = 2 ^ (n + s) := (pow_add 2 n s).symm
    _ ≤ 2 ^ 64 := Nat.pow_le_pow_right Nat.two_pos h

/-! ## Windows -/

theorem window_zero (be : Bool) (q off : ℕ) : window be bs q off 0 = 0 := by
  cases be <;> simp [window, leVal, beVal]

/-- A window of one byte is the byte in its lane. -/
theorem window_one (be : Bool) (q off : ℕ) :
    window be bs q off 1 = byteAt bs q * 2 ^ (8 * (if be then 7 - off else off)) := by
  cases be
  · simp [window, leVal]
  · simp only [window, beVal, mul_zero, pow_zero, mul_one, add_zero, if_true]
    congr 3
    omega

theorem window_lt (be : Bool) (q : ℕ) {off k : ℕ} (h : off + k ≤ 8) :
    window be bs q off k < 2 ^ 64 := by
  cases be
  · exact mul_two_pow_lt (leVal_lt q k) (by omega)
  · exact mul_two_pow_lt (beVal_lt q k) (by omega)

/-- **Joining adjacent windows.** The bytes `q .. q + j - 1` in the lanes from `off` and the
next `k` bytes in the lanes after them make one window. -/
theorem window_or (be : Bool) (q : ℕ) {off j k : ℕ} (h : off + j + k ≤ 8) :
    window be bs q off j ||| window be bs (q + j) (off + j) k = window be bs q off (j + k) := by
  cases be
  · -- little-endian: the second window is the high part
    have hhi : leVal bs (q + j) k * 2 ^ (8 * (off + j)) % 2 ^ (8 * (off + j)) = 0 :=
      Nat.mul_mod_left _ _
    have hlo : leVal bs q j * 2 ^ (8 * off) < 2 ^ (8 * (off + j)) := by
      rw [show 8 * (off + j) = 8 * j + 8 * off by ring, pow_add]
      exact Nat.mul_lt_mul_of_pos_right (leVal_lt q j) (Nat.two_pow_pos _)
    simp only [window, Bool.false_eq_true, if_false]
    rw [Nat.lor_comm, BitFields.or_eq_add_of_lt _ hhi hlo, leVal_add,
      show 8 * (off + j) = 8 * j + 8 * off by ring, pow_add]
    ring
  · -- big-endian: the first window is the high part
    have hexp : 8 * (8 - off - j) = 8 * k + 8 * (8 - (off + j) - k) := by omega
    have hhi : beVal bs q j * 2 ^ (8 * (8 - off - j)) % 2 ^ (8 * (8 - off - j)) = 0 :=
      Nat.mul_mod_left _ _
    have hlo : beVal bs (q + j) k * 2 ^ (8 * (8 - (off + j) - k)) < 2 ^ (8 * (8 - off - j)) := by
      rw [hexp, pow_add]
      exact Nat.mul_lt_mul_of_pos_right (beVal_lt (q + j) k) (Nat.two_pow_pos _)
    simp only [window, if_true]
    rw [BitFields.or_eq_add_of_lt _ hhi hlo, beVal_add, hexp, pow_add,
      show 8 - off - (j + k) = 8 - (off + j) - k by omega]
    ring

/-! ## Moving bytes between lanes -/

/-- Moving a window towards lane `0` by no more than its first lane. -/
theorem shiftFront_window (be : Bool) (q : ℕ) {m off k : ℕ} (hm : m ≤ off)
    (h : off + k ≤ 8) : shiftFront be m (window be bs q off k) = window be bs q (off - m) k := by
  cases be
  · simp only [shiftFront, window, Bool.false_eq_true, if_false, Nat.shiftRight_eq_div_pow]
    rw [show 8 * off = 8 * (off - m) + 8 * m by omega, pow_add, ← mul_assoc,
      Nat.mul_div_cancel _ (Nat.two_pow_pos _)]
  · have hlt := @window_lt bs true q _ _ (show off - m + k ≤ 8 by omega)
    simp only [shiftFront, window, if_true, Nat.shiftLeft_eq] at hlt ⊢
    rw [mul_assoc, ← pow_add, show 8 * (8 - off - k) + 8 * m = 8 * (8 - (off - m) - k) by omega,
      Nat.mod_eq_of_lt hlt]

/-- Moving a whole word towards lane `0` by `m` lanes drops its first `m` bytes. -/
theorem shiftFront_window_full (be : Bool) (q : ℕ) {m : ℕ} (hm : m ≤ 8) :
    shiftFront be m (window be bs q 0 8) = window be bs (q + m) 0 (8 - m) := by
  cases be
  · -- the first `m` bytes are the remainder of the division
    have hsplit := @leVal_add bs q m (8 - m)
    rw [Nat.add_sub_cancel' hm] at hsplit
    simp only [shiftFront, window, Bool.false_eq_true, if_false, Nat.shiftRight_eq_div_pow,
      mul_zero, pow_zero, mul_one]
    rw [hsplit, Nat.add_mul_div_left _ _ (Nat.two_pow_pos _), Nat.div_eq_of_lt (leVal_lt q m),
      zero_add]
  · -- the first `m` bytes leave the word
    have hsplit := @beVal_add bs q m (8 - m)
    rw [Nat.add_sub_cancel' hm] at hsplit
    have hlt := @window_lt bs true (q + m) _ _ (show 0 + (8 - m) ≤ 8 by omega)
    simp only [shiftFront, window, if_true, Nat.shiftLeft_eq, Nat.sub_zero, Nat.sub_self,
      mul_zero, pow_zero, mul_one] at hlt ⊢
    rw [show 8 - (8 - m) = m by omega] at hlt ⊢
    rw [hsplit, add_mul, mul_assoc, ← pow_add, show 8 * (8 - m) + 8 * m = 64 by omega,
      Nat.mul_add_mod_of_lt hlt]

/-- Moving a window towards lane `7` while it stays in the word. -/
theorem shiftBack_window (be : Bool) (q : ℕ) {m off k : ℕ} (h : off + m + k ≤ 8) :
    shiftBack be m (window be bs q off k) = window be bs q (off + m) k := by
  cases be
  · have hlt := @window_lt bs false q _ _ h
    simp only [shiftBack, window, Bool.false_eq_true, if_false, Nat.shiftLeft_eq] at hlt ⊢
    rw [mul_assoc, ← pow_add, ← Nat.mul_add, Nat.mod_eq_of_lt hlt]
  · simp only [shiftBack, window, if_true, Nat.shiftRight_eq_div_pow]
    rw [show 8 * (8 - off - k) = 8 * (8 - (off + m) - k) + 8 * m by omega, pow_add,
      ← mul_assoc, Nat.mul_div_cancel _ (Nat.two_pow_pos _)]

/-- Moving a whole word towards lane `7` by `m` lanes drops its last `m` bytes. -/
theorem shiftBack_window_full (be : Bool) (q : ℕ) {m : ℕ} (hm : m ≤ 8) :
    shiftBack be m (window be bs q 0 8) = window be bs q m (8 - m) := by
  cases be
  · -- the last `m` bytes leave the word
    have hsplit := @leVal_add bs q (8 - m) m
    rw [Nat.sub_add_cancel hm] at hsplit
    have hlt := @window_lt bs false q _ _ (show m + (8 - m) ≤ 8 by omega)
    simp only [shiftBack, window, Bool.false_eq_true, if_false, Nat.shiftLeft_eq, mul_zero,
      pow_zero, mul_one] at hlt ⊢
    have hout : 2 ^ (8 * (8 - m)) * leVal bs (q + (8 - m)) m * 2 ^ (8 * m) =
        leVal bs (q + (8 - m)) m * 2 ^ 64 := by
      rw [mul_comm (2 ^ _), mul_assoc, ← pow_add, show 8 * (8 - m) + 8 * m = 64 by omega]
    rw [hsplit, add_mul, hout, Nat.add_mul_mod_self_right, Nat.mod_eq_of_lt hlt]
  · -- the last `m` bytes are the remainder of the division
    have hsplit := @beVal_add bs q (8 - m) m
    rw [Nat.sub_add_cancel hm] at hsplit
    simp only [shiftBack, window, if_true, Nat.shiftRight_eq_div_pow, Nat.sub_zero,
      Nat.sub_self, mul_zero, pow_zero, mul_one]
    rw [hsplit, mul_comm, Nat.mul_add_div (Nat.two_pow_pos _), Nat.div_eq_of_lt (beVal_lt _ m),
      add_zero]

end ByteWord
