import CRuby.Pack.Decode
import CRuby.Lib.BitFields
import Mathlib.Tactic.NormNum

/-!
# One group of characters, encoded and decoded

The encoders cut three bytes into four six-bit values and the decoders glue four six-bit values
into three bytes by the same shifts. Read as numbers (`BitFields`), the values are

* `sextet0 s0 = s0 / 4`, `sextet1 s0 s1 = s0 % 4 * 16 + s1 / 16`,
  `sextet2 s1 s2 = s1 % 16 * 4 + s2 / 64`, `sextet3 s2 = s2 % 64`,

and `hunk` of the four values gives the three bytes back (`hunk_sextets`). A missing byte of a
short last group is encoded as 0, so the same lemma covers the padded groups.

The tables are inverted by their decoders on every six-bit value (`b64Xtable_b64Table`,
`uuGetc_uuTable`) and `hex2num` inverts `hex_table` (`hex2num_hexTable`); these are finite
facts, checked by evaluation.
-/

namespace CRuby.Pack

open BitFields

/-! ## The six-bit values as numbers -/

theorem toNat_sextet0 (s0 : UInt8) : (sextet0 s0).toNat = s0.toNat / 4 := by
  have h0 := s0.toNat_lt
  simp only [sextet0, UInt8.toNat_and, UInt8.toNat_shiftRight, UInt8.toNat_ofNat,
    Nat.shiftRight_eq_div_pow]
  norm_num
  rw [Nat.land_comm, and_eq_mod_of_mask 63 0 6 (by norm_num) (by omega) (by norm_num)]
  omega

theorem toNat_sextet1 (s0 s1 : UInt8) :
    (sextet1 s0 s1).toNat = s0.toNat % 4 * 16 + s1.toNat / 16 := by
  have h0 := s0.toNat_lt
  have h1 := s1.toNat_lt
  simp only [sextet1, UInt8.toNat_and, UInt8.toNat_or, UInt8.toNat_shiftLeft,
    UInt8.toNat_shiftRight, UInt8.toNat_ofNat, Nat.shiftLeft_eq, Nat.shiftRight_eq_div_pow]
  norm_num
  -- the two fields, then their union, then the outer mask
  rw [and_eq_mod_of_mask 48 4 6 (by norm_num) (by omega) (by norm_num),
    and_eq_mod_of_mask 15 0 4 (by norm_num) (by omega) (by norm_num),
    or_eq_add_of_lt 4 (by omega) (by omega), Nat.land_comm,
    and_eq_mod_of_mask 63 0 6 (by norm_num) (by omega) (by norm_num)]
  omega

theorem toNat_sextet2 (s1 s2 : UInt8) :
    (sextet2 s1 s2).toNat = s1.toNat % 16 * 4 + s2.toNat / 64 := by
  have h1 := s1.toNat_lt
  have h2 := s2.toNat_lt
  simp only [sextet2, UInt8.toNat_and, UInt8.toNat_or, UInt8.toNat_shiftLeft,
    UInt8.toNat_shiftRight, UInt8.toNat_ofNat, Nat.shiftLeft_eq, Nat.shiftRight_eq_div_pow]
  norm_num
  rw [and_eq_mod_of_mask 60 2 6 (by norm_num) (by omega) (by norm_num),
    and_eq_mod_of_mask 3 0 2 (by norm_num) (by omega) (by norm_num),
    or_eq_add_of_lt 2 (by omega) (by omega), Nat.land_comm,
    and_eq_mod_of_mask 63 0 6 (by norm_num) (by omega) (by norm_num)]
  omega

theorem toNat_sextet3 (s2 : UInt8) : (sextet3 s2).toNat = s2.toNat % 64 := by
  simp only [sextet3, UInt8.toNat_and, UInt8.toNat_ofNat]
  norm_num
  rw [Nat.land_comm, and_eq_mod_of_mask 63 0 6 (by norm_num) (by omega) (by norm_num)]
  norm_num

/-! ## Decoding a group -/

/-- The first byte of a group comes back from its first two six-bit values. -/
theorem sextet0_shiftLeft_or (s0 s1 : UInt8) :
    sextet0 s0 <<< (2 : UInt8) ||| sextet1 s0 s1 >>> (4 : UInt8) = s0 := by
  have h0 := s0.toNat_lt
  have h1 := s1.toNat_lt
  apply UInt8.toNat_inj.mp
  simp only [UInt8.toNat_or, UInt8.toNat_shiftLeft, UInt8.toNat_shiftRight, toNat_sextet0,
    toNat_sextet1, UInt8.toNat_ofNat, Nat.shiftLeft_eq, Nat.shiftRight_eq_div_pow]
  norm_num
  rw [or_eq_add_of_lt 2 (by omega) (by omega)]
  omega

/-- The second byte comes back from the second and third values. -/
theorem sextet1_shiftLeft_or (s0 s1 s2 : UInt8) :
    sextet1 s0 s1 <<< (4 : UInt8) ||| sextet2 s1 s2 >>> (2 : UInt8) = s1 := by
  have h0 := s0.toNat_lt
  have h1 := s1.toNat_lt
  have h2 := s2.toNat_lt
  apply UInt8.toNat_inj.mp
  simp only [UInt8.toNat_or, UInt8.toNat_shiftLeft, UInt8.toNat_shiftRight, toNat_sextet1,
    toNat_sextet2, UInt8.toNat_ofNat, Nat.shiftLeft_eq, Nat.shiftRight_eq_div_pow]
  norm_num
  rw [or_eq_add_of_lt 4 (by omega) (by omega)]
  omega

/-- The third byte comes back from the third and fourth values. -/
theorem sextet2_shiftLeft_or (s1 s2 : UInt8) :
    sextet2 s1 s2 <<< (6 : UInt8) ||| sextet3 s2 = s2 := by
  have h1 := s1.toNat_lt
  have h2 := s2.toNat_lt
  apply UInt8.toNat_inj.mp
  simp only [UInt8.toNat_or, UInt8.toNat_shiftLeft, toNat_sextet2, toNat_sextet3,
    UInt8.toNat_ofNat, Nat.shiftLeft_eq]
  norm_num
  rw [or_eq_add_of_lt 6 (by omega) (by omega)]
  omega

/-- **A group round trip.** The bytes of the four six-bit values of three bytes are the three
bytes. -/
theorem hunk_sextets (s0 s1 s2 : UInt8) :
    hunk (sextet0 s0) (sextet1 s0 s1) (sextet2 s1 s2) (sextet3 s2) = [s0, s1, s2] := by
  simp only [hunk, sextet0_shiftLeft_or, sextet1_shiftLeft_or, sextet2_shiftLeft_or]

/-- The missing bytes of a short group are encoded as the value 0. -/
theorem sextet3_zero : sextet3 0 = 0 := by decide

theorem sextet2_zero_zero : sextet2 0 0 = 0 := by decide

theorem sextet0_lt (s0 : UInt8) : (sextet0 s0).toNat < 64 := by
  have := s0.toNat_lt
  rw [toNat_sextet0]
  omega

theorem sextet1_lt (s0 s1 : UInt8) : (sextet1 s0 s1).toNat < 64 := by
  have := s1.toNat_lt
  rw [toNat_sextet1]
  omega

theorem sextet2_lt (s1 s2 : UInt8) : (sextet2 s1 s2).toNat < 64 := by
  have := s2.toNat_lt
  rw [toNat_sextet2]
  omega

theorem sextet3_lt (s2 : UInt8) : (sextet3 s2).toNat < 64 := by
  rw [toNat_sextet3]
  omega

/-! ## The tables -/

set_option maxRecDepth 4000 in
theorem b64Xtable_b64Table_of_lt :
    ∀ i < 64, b64Xtable (b64Table.getD i 0) = some (UInt8.ofNat i) := by
  decide

/-- `b64_xtable` inverts `b64_table` on every six-bit value. -/
theorem b64Xtable_b64Table {x : UInt8} (hx : x.toNat < 64) :
    b64Xtable (b64Table.getD x.toNat 0) = some x := by
  rw [b64Xtable_b64Table_of_lt x.toNat hx, UInt8.ofNat_toNat]

theorem b64Xtable_pad : b64Xtable '='.toUInt8 = none := by decide

theorem b64Xtable_newline : b64Xtable '\n'.toUInt8 = none := by decide

set_option maxRecDepth 4000 in
theorem uuGetc_uuTable_of_lt :
    ∀ i < 64, ∀ s, uuGetc (uuTable.getD i 0 :: s) = (UInt8.ofNat i, s) := by
  intro i hi s
  have key : ∀ i < 64, ' '.toUInt8 ≤ uuTable.getD i 0 ∧ uuTable.getD i 0 < 'a'.toUInt8 ∧
      (uuTable.getD i 0 - ' '.toUInt8) &&& 0o77 = UInt8.ofNat i := by
    decide
  obtain ⟨hlo, hhi, hval⟩ := key i hi
  simp only [uuGetc, hlo, hhi, and_self, if_true, hval]

/-- A character of `uu_table` is read back as its index. -/
theorem uuGetc_uuTable {x : UInt8} (hx : x.toNat < 64) (s : List UInt8) :
    uuGetc (uuTable.getD x.toNat 0 :: s) = (x, s) := by
  rw [uuGetc_uuTable_of_lt x.toNat hx s, UInt8.ofNat_toNat]

/-- The padding of `u` is read as 0. -/
theorem uuGetc_padding (s : List UInt8) : uuGetc ('\x60'.toUInt8 :: s) = (0, s) := by
  have h : ' '.toUInt8 ≤ '\x60'.toUInt8 ∧ '\x60'.toUInt8 < 'a'.toUInt8 ∧
      ('\x60'.toUInt8 - ' '.toUInt8) &&& 0o77 = 0 := by decide
  simp only [uuGetc, h, and_self, if_true]

theorem hex2num_hexTable : ∀ i < 16, hex2num (hexTable.getD i 0) = some i := by
  decide

/-- No digit of `hex_table` is a line break. -/
theorem hexTable_ne : ∀ i < 16, hexTable.getD i 0 ≠ '\r'.toUInt8 ∧
    hexTable.getD i 0 ≠ '\n'.toUInt8 := by
  decide

end CRuby.Pack
