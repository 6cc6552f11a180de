import CRuby.Lib.ByteWord

/-!
# The bits of a word's byte lanes

SWAR code ("SIMD within a register") reads eight bytes as one 64-bit word and works on all of
them at once: a mask keeps some bits of every lane, a shift moves bits between lanes, and sums of
shifted copies add the lanes together. On a word read little-endian from memory (`leVal`), bit
`r` of lane `j` is bit `8 * j + r` of the word (`testBit_leVal`), so every bitwise step is read
lane by lane, and a mask such as `0x8080808080808080` picks the same bit of every lane.

* `trailingZeros w x` is `ctz` of a `w`-bit word: the index of its lowest set bit
  (`trailingZeros_eq`);
* the complement `~x` of a `w`-bit word is `2 ^ w - 1 - x`, bit for bit (`testBit_complement`);
* a word whose lanes each hold `0` or `1` gathers the number of ones in its low lane by three
  shifted adds, by `8`, `16` and `32` bits (`addLanes_bits`).
-/

namespace ByteWord

variable {bs : List UInt8}

/-- **Bit `r` of lane `j`** of `k` bytes read little-endian is bit `r` of byte `q + j`. -/
theorem testBit_leVal (q k : ℕ) {r : ℕ} (hr : r < 8) (j : ℕ) :
    (leVal bs q k).testBit (8 * j + r) = (decide (j < k) && (byteAt bs (q + j)).testBit r) := by
  induction k generalizing q j with
  | zero => simp [leVal]
  | succ k ih =>
    rw [leVal, Nat.add_comm (byteAt bs q), Nat.testBit_two_pow_mul_add _ (byteAt_lt bs q)]
    cases j with
    | zero => simp [hr]
    | succ j =>
      -- lane `j + 1` is lane `j` of the bytes after the first
      rw [if_neg (by omega), show 8 * (j + 1) + r - 8 = 8 * j + r by omega, ih]
      simp [Nat.add_assoc, Nat.add_comm 1 j]

/-- Every bit of `k` bytes lies in one of their lanes. -/
theorem testBit_leVal_of_le (q k : ℕ) {i : ℕ} (hi : 8 * k ≤ i) : (leVal bs q k).testBit i = false :=
  Nat.testBit_lt_two_pow (lt_of_lt_of_le (leVal_lt q k) (Nat.pow_le_pow_right Nat.two_pos hi))

/-- The complement of a `w`-bit word flips each of its bits. -/
theorem testBit_complement {x w : ℕ} (hx : x < 2 ^ w) (i : ℕ) :
    (2 ^ w - 1 - x).testBit i = (decide (i < w) && !x.testBit i) := by
  rw [show 2 ^ w - 1 - x = 2 ^ w - (x + 1) by omega, Nat.testBit_two_pow_sub_succ hx]

/-- `ctz` of a `w`-bit word: the zero bits below the lowest set bit, `w` for zero. -/
def trailingZeros : ℕ → ℕ → ℕ
  | 0, _ => 0
  | w + 1, x => if x % 2 = 1 then 0 else trailingZeros w (x / 2) + 1

/-- **`ctz` finds the lowest set bit.** -/
theorem trailingZeros_eq {w x i : ℕ} (hi : i < w) (hx : x.testBit i = true)
    (hlow : ∀ j < i, x.testBit j = false) : trailingZeros w x = i := by
  induction i generalizing w x with
  | zero =>
    obtain ⟨w, rfl⟩ := Nat.exists_eq_add_of_lt hi
    rw [Nat.testBit_zero, decide_eq_true_iff] at hx
    rw [Nat.zero_add, trailingZeros, if_pos hx]
  | succ i ih =>
    obtain ⟨w, rfl⟩ := Nat.exists_eq_add_of_lt (Nat.lt_of_le_of_lt (Nat.zero_le _) hi)
    have h0 := hlow 0 (Nat.succ_pos i)
    rw [Nat.testBit_zero, decide_eq_false_iff_not] at h0
    rw [Nat.zero_add, trailingZeros, if_neg h0,
      ih (by omega) (by rwa [Nat.testBit_div_two])
        (fun j hj => by rw [Nat.testBit_div_two]; exact hlow (j + 1) (by omega))]

/-- Three shifted adds in a 64-bit word: `d += d >> 8; d += d >> 16; d += d >> 32`, then the low
four bits. -/
def addLanes (d : ℕ) : ℕ :=
  let d := (d + (d >>> 8)) % 2 ^ 64
  let d := (d + (d >>> 16)) % 2 ^ 64
  let d := (d + (d >>> 32)) % 2 ^ 64
  d &&& 0xF

/-- **Eight lanes of `0` or `1` add up in the low lane**, every pattern checked. -/
theorem addLanes_bits : ∀ b₀ b₁ b₂ b₃ b₄ b₅ b₆ b₇ : Bool,
    addLanes (leVal [b₀.toUInt8, b₁.toUInt8, b₂.toUInt8, b₃.toUInt8, b₄.toUInt8, b₅.toUInt8,
        b₆.toUInt8, b₇.toUInt8] 0 8) =
      b₀.toNat + b₁.toNat + b₂.toNat + b₃.toNat + b₄.toNat + b₅.toNat + b₆.toNat + b₇.toNat := by
  decide

end ByteWord
