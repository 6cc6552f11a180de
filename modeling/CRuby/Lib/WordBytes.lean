import CRuby.Lib.BitFields
import Mathlib.Data.Nat.Digits.Lemmas

/-!
# Machine words cut into bytes and built from bytes

Code that writes a signed machine word a byte at a time takes the low byte with `x & 0xff` and
moves on with an arithmetic shift `x >> 8`. Code that reads it back ORs each byte into its
lane, `x |= b << 8i`, starting from `0`, or starting from `-1` (all ones) for a negative
number, in which case it clears the lane first, `x &= ~(0xff << 8i)`. Read as numbers:

* the low byte is the unsigned value, and also the signed one, modulo `256`
  (`toNat_and_255`, `toNat_emod_eq_toInt_emod`), and the shift is floor division of the signed
  value (`toInt_sshiftRight_eq_div`);
* OR-ing a byte into the lane above a value below `2 ^ k` adds it (`toNat_or_shiftLeft`);
* clearing the lowest lane of a run of ones above a value below `2 ^ k` and OR-ing a byte into
  it adds the byte too, and the ones now start a lane higher (`toNat_clear_or_shiftLeft`).

A byte string read least significant byte first is `bytesVal`, Mathlib's `Nat.ofDigits` in
base `256`.
-/

namespace WordBytes

/-! ## Byte strings as numbers -/

/-- The bytes read little-endian: the first one least significant. -/
def bytesVal (bs : List UInt8) : ℕ := Nat.ofDigits 256 (bs.map UInt8.toNat)

@[simp] theorem bytesVal_nil : bytesVal [] = 0 := rfl

@[simp] theorem bytesVal_cons (b : UInt8) (bs : List UInt8) :
    bytesVal (b :: bs) = b.toNat + 256 * bytesVal bs := by
  rw [bytesVal, List.map_cons, Nat.ofDigits_cons]
  rfl

theorem bytesVal_append (bs cs : List UInt8) :
    bytesVal (bs ++ cs) = bytesVal bs + 2 ^ (8 * bs.length) * bytesVal cs := by
  rw [bytesVal, List.map_append, Nat.ofDigits_append, List.length_map, pow_mul]
  rfl

theorem bytesVal_lt (bs : List UInt8) : bytesVal bs < 2 ^ (8 * bs.length) := by
  have h := Nat.ofDigits_lt_base_pow_length (b := 256) (l := bs.map UInt8.toNat) (by norm_num)
    (by
      simp only [List.mem_map]
      rintro _ ⟨a, -, rfl⟩
      exact a.toNat_lt)
  rwa [List.length_map, show (256 : ℕ) = 2 ^ 8 from rfl, ← pow_mul] at h

/-! ## Cutting a word into bytes -/

variable {w : ℕ}

/-- `x & 0xff` is the unsigned value modulo `256`. -/
theorem toNat_and_255 (x : BitVec w) (hw : 8 ≤ w) : (x &&& 255).toNat = x.toNat % 2 ^ 8 := by
  have h255 : (255 : BitVec w).toNat = 2 ^ 8 - 1 := by
    have : 2 ^ 8 ≤ 2 ^ w := Nat.pow_le_pow_right (by norm_num) hw
    rw [show (255 : BitVec w).toNat = 255 % 2 ^ w by simp, Nat.mod_eq_of_lt (by omega)]
    rfl
  rw [BitVec.toNat_and, h255, Nat.and_two_pow_sub_one_eq_mod]

/-- The unsigned and the signed value of a word agree modulo a power of two that divides
`2 ^ w`. -/
theorem toNat_emod_eq_toInt_emod (x : BitVec w) {k : ℕ} (hk : k ≤ w) :
    (x.toNat : ℤ) % 2 ^ k = x.toInt % 2 ^ k := by
  obtain ⟨m, hm⟩ : (2 : ℤ) ^ k ∣ 2 ^ w := pow_dvd_pow 2 hk
  rw [BitVec.toInt_eq_toNat_cond]
  split
  · rfl
  · rw [Nat.cast_pow, Nat.cast_ofNat, hm, Int.sub_mul_emod_self_left]

/-- The arithmetic shift right is floor division of the signed value. -/
theorem toInt_sshiftRight_eq_div (x : BitVec w) (k : ℕ) :
    (x.sshiftRight k).toInt = x.toInt / 2 ^ k := by
  rw [BitVec.toInt_sshiftRight, Int.shiftRight_eq_div_pow, Nat.cast_pow, Nat.cast_ofNat]

/-! ## Building a word from bytes -/

/-- `(b << k).toNat` for a byte that fits above bit `k`. -/
theorem toNat_ofNat_shiftLeft {b k : ℕ} (hb : b < 2 ^ 8) (hk : k + 8 ≤ w) :
    (BitVec.ofNat w b <<< k).toNat = b * 2 ^ k := by
  have hw : 2 ^ (k + 8) ≤ 2 ^ w := Nat.pow_le_pow_right (by norm_num) hk
  have hbk : b * 2 ^ k < 2 ^ w := by
    calc b * 2 ^ k < 2 ^ 8 * 2 ^ k := Nat.mul_lt_mul_of_pos_right hb (Nat.two_pow_pos k)
      _ = 2 ^ (k + 8) := by rw [← pow_add, Nat.add_comm]
      _ ≤ 2 ^ w := hw
  have hbw : b < 2 ^ w := lt_of_lt_of_le hb (le_trans (Nat.pow_le_pow_right (by norm_num)
    (by omega)) hw)
  rw [BitVec.toNat_shiftLeft, BitVec.toNat_ofNat, Nat.mod_eq_of_lt hbw, Nat.shiftLeft_eq,
    Nat.mod_eq_of_lt hbk]

/-- **OR-ing a byte into the lane above** a value below `2 ^ k` adds it. -/
theorem toNat_or_shiftLeft (x : BitVec w) {b k : ℕ} (hx : x.toNat < 2 ^ k) (hb : b < 2 ^ 8)
    (hk : k + 8 ≤ w) : (x ||| BitVec.ofNat w b <<< k).toNat = x.toNat + b * 2 ^ k := by
  rw [BitVec.toNat_or, toNat_ofNat_shiftLeft hb hk, Nat.lor_comm,
    BitFields.or_eq_add_of_lt k (Nat.mul_mod_left _ _) hx, Nat.add_comm]

/-- **Replacing the lowest lane of the ones.** A word that is all ones from bit `k` up, with a
value `l` below them, gets a byte `b` in the lane at `k` by clearing that lane and OR-ing `b`
into it: the value grows by `b * 2 ^ k`, and the ones start at bit `k + 8`. -/
theorem toNat_clear_or_shiftLeft (x : BitVec w) {b k l : ℕ} (hx : x.toNat = 2 ^ w - 2 ^ k + l)
    (hl : l < 2 ^ k) (hb : b < 2 ^ 8) (hk : k + 8 ≤ w) :
    (x &&& ~~~((255 : BitVec w) <<< k) ||| BitVec.ofNat w b <<< k).toNat =
      2 ^ w - 2 ^ (k + 8) + (l + b * 2 ^ k) := by
  -- the powers involved, as multiples of `2 ^ k` and of `2 ^ (k + 8)`
  have hK : 2 ^ (k + 8) = 2 ^ k * 2 ^ 8 := pow_add 2 k 8
  obtain ⟨s, hs⟩ : 2 ^ (k + 8) ∣ 2 ^ w := pow_dvd_pow 2 hk
  have hs1 : 1 ≤ s := Nat.pos_of_ne_zero fun h => by
    rw [h, Nat.mul_zero] at hs
    exact absurd hs (Nat.two_pow_pos w).ne'
  have hP := Nat.two_pow_pos k
  -- the ones above bit `k + 8`, a multiple of both powers
  set H := 2 ^ w - 2 ^ (k + 8) with hH
  have hHK : H = 2 ^ (k + 8) * (s - 1) := by rw [hH, hs, Nat.mul_sub_one]
  have hHmod8 : H % 2 ^ (k + 8) = 0 := by rw [hHK, Nat.mul_mod_right]
  have hHk : H = 2 ^ k * (2 ^ 8 * (s - 1)) := by rw [hHK, hK, Nat.mul_assoc]
  have hHmod : H % 2 ^ k = 0 := by rw [hHk, Nat.mul_mod_right]
  have hx' : x.toNat = H + (2 ^ k * 255 + l) := by
    have : 2 ^ (k + 8) ≤ 2 ^ w := by rw [hs]; exact Nat.le_mul_of_pos_right _ hs1
    rw [hx, hH]
    omega
  -- the mask is the ones above the lane joined with the ones below it
  have h255 : ((255 : BitVec w) <<< k).toNat = 255 * 2 ^ k :=
    toNat_ofNat_shiftLeft (b := 255) (by norm_num) hk
  have hmask : (~~~((255 : BitVec w) <<< k)).toNat = H ||| (2 ^ k - 1) := by
    rw [BitVec.toNat_not, h255, BitFields.or_eq_add_of_lt k hHmod (by omega), hH]
    have : 2 ^ (k + 8) ≤ 2 ^ w := by rw [hs]; exact Nat.le_mul_of_pos_right _ hs1
    omega
  -- below the lane `x` holds `l`; from the lane up it holds the ones above it
  have hlow : x.toNat &&& (2 ^ k - 1) = l := by
    rw [Nat.and_two_pow_sub_one_eq_mod, hx', hHk, ← Nat.add_assoc, ← Nat.mul_add,
      Nat.mul_add_mod, Nat.mod_eq_of_lt hl]
  have hhigh : x.toNat &&& H = H := by
    rw [hH, BitFields.and_high_mask x.isLt hk, ← hH, hx', hHK,
      Nat.mul_add_div (Nat.two_pow_pos _), Nat.div_eq_of_lt (by omega), Nat.add_zero,
      Nat.mul_comm]
  have hbk : b * 2 ^ k ≤ 255 * 2 ^ k := Nat.mul_le_mul_right _ (by omega)
  rw [BitVec.toNat_or, BitVec.toNat_and, hmask, Nat.and_or_distrib_left, hhigh, hlow,
    toNat_ofNat_shiftLeft hb hk, Nat.lor_assoc, Nat.lor_comm l,
    BitFields.or_eq_add_of_lt k (Nat.mul_mod_left _ _) hl,
    BitFields.or_eq_add_of_lt (k + 8) hHmod8 (by omega), Nat.add_comm (b * 2 ^ k)]

end WordBytes
