import CRuby.Pack.Groups

/-!
# Strict base64 is a bijection

`m0` packs a string as one line of base64 without a newline, and `unpack("m0")` decodes it
strictly: a group is four characters of `b64_table`, or two followed by `==` or three followed
by `=` at the very end, with the bits of a padded group's last character that fall outside the
bytes all zero; every other input raises `ArgumentError` with `invalid base64`.

For every string `t` and every byte string `b`, `unpack("m0")` of `t` returns `b` exactly when
`pack("m0")` of `b` is `t`, and it raises `invalid base64` on every `t` that `pack("m0")` does
not write (`unpackMStrict_exact`). Two lemmas carry it:

* the strict loop reads an encoded body back (`unpackMStrictLoop_encodesBody`), by the group
  round trip of `CRuby.Pack.Groups`;
* the strict loop either reads some encoded body or raises `invalid base64`
  (`unpackMStrictLoop_cases`). Here the decoded bytes are encoded again: a base64 character is
  the table entry of its value (`b64Table_of_b64Xtable`), and the six-bit values of the decoded
  bytes are the values read (`encodesBody_hunk`), for a padded group because its spare bits are
  zero (`encodesBody_pad1`, `encodesBody_pad2`).
-/

namespace CRuby.Pack

open BitFields

/-! ## The table read backwards -/

/-- A byte that `b64_xtable` maps to `a` is the table entry at `a`. -/
theorem b64Table_of_b64Xtable {x a : UInt8} (h : b64Xtable x = some a) :
    a.toNat < 64 ∧ b64Table.getD a.toNat 0 = x := by
  obtain ⟨i, hi, rfl⟩ := Option.map_eq_some_iff.mp h
  have hlt : i < 64 := List.mem_range.mp (List.mem_of_find?_eq_some hi)
  have hentry : b64Table.getD i 0 = x := by simpa using List.find?_some hi
  have hval : (UInt8.ofNat i).toNat = i := by
    rw [UInt8.toNat_ofNat']
    omega
  rw [hval]
  exact ⟨hlt, hentry⟩

/-- No character of `b64_table` is the padding `=`, which `b64_xtable` does not map. -/
theorem b64Table_ne_pad {x : UInt8} (hx : x.toNat < 64) : b64Table.getD x.toNat 0 ≠ '='.toUInt8 := by
  intro h
  have := b64Xtable_b64Table hx
  rw [h, b64Xtable_pad] at this
  cases this

/-! ## The decoded bytes as numbers -/

theorem toNat_hunk0 {a b : UInt8} (ha : a.toNat < 64) (hb : b.toNat < 64) :
    (a <<< (2 : UInt8) ||| b >>> (4 : UInt8)).toNat = a.toNat * 4 + b.toNat / 16 := by
  simp only [UInt8.toNat_or, UInt8.toNat_shiftLeft, UInt8.toNat_shiftRight, UInt8.toNat_ofNat,
    Nat.shiftLeft_eq, Nat.shiftRight_eq_div_pow]
  norm_num
  rw [Nat.mod_eq_of_lt (by omega), or_eq_add_of_lt 2 (by omega) (by omega)]

theorem toNat_hunk1 {b c : UInt8} (hc : c.toNat < 64) :
    (b <<< (4 : UInt8) ||| c >>> (2 : UInt8)).toNat = b.toNat % 16 * 16 + c.toNat / 4 := by
  have hb := b.toNat_lt
  simp only [UInt8.toNat_or, UInt8.toNat_shiftLeft, UInt8.toNat_shiftRight, UInt8.toNat_ofNat,
    Nat.shiftLeft_eq, Nat.shiftRight_eq_div_pow]
  norm_num
  rw [or_eq_add_of_lt 4 (by omega) (by omega)]
  omega

theorem toNat_hunk2 {c d : UInt8} (hd : d.toNat < 64) :
    (c <<< (6 : UInt8) ||| d).toNat = c.toNat % 4 * 64 + d.toNat := by
  have hc := c.toNat_lt
  simp only [UInt8.toNat_or, UInt8.toNat_shiftLeft, UInt8.toNat_ofNat, Nat.shiftLeft_eq]
  norm_num
  rw [or_eq_add_of_lt 6 (by omega) (by omega)]
  omega

/-- The padding tests of `m0` on the spare bits of the last character, `b & 0xf` and `c & 0x3`,
are remainders by a power of two. -/
theorem and_mask_eq_zero_iff (x m : UInt8) (k : ℕ) (hm : m.toNat = 2 ^ k - 1) :
    x &&& m = 0 ↔ x.toNat % 2 ^ k = 0 := by
  rw [← UInt8.toNat_inj, UInt8.toNat_and, hm, Nat.and_two_pow_sub_one_eq_mod, UInt8.toNat_zero]

/-! ## Encoding the decoded bytes again -/

section Encode

variable {a b c d : UInt8}

/-- The six-bit values of the bytes of a full group are the four values read. -/
theorem encodesBody_hunk (ha : a.toNat < 64) (hb : b.toNat < 64) (hc : c.toNat < 64)
    (hd : d.toNat < 64) (x : List UInt8) :
    encodesBody b64Table '='.toUInt8 (hunk a b c d ++ x) =
      [b64Table.getD a.toNat 0, b64Table.getD b.toNat 0, b64Table.getD c.toNat 0,
        b64Table.getD d.toNat 0] ++ encodesBody b64Table '='.toUInt8 x := by
  have h0 : (sextet0 (a <<< (2 : UInt8) ||| b >>> (4 : UInt8))).toNat = a.toNat := by
    rw [toNat_sextet0, toNat_hunk0 ha hb]
    omega
  have h1 : (sextet1 (a <<< (2 : UInt8) ||| b >>> (4 : UInt8))
      (b <<< (4 : UInt8) ||| c >>> (2 : UInt8))).toNat = b.toNat := by
    rw [toNat_sextet1, toNat_hunk0 ha hb, toNat_hunk1 hc]
    omega
  have h2 : (sextet2 (b <<< (4 : UInt8) ||| c >>> (2 : UInt8))
      (c <<< (6 : UInt8) ||| d)).toNat = c.toNat := by
    rw [toNat_sextet2, toNat_hunk1 hc, toNat_hunk2 hd]
    omega
  have h3 : (sextet3 (c <<< (6 : UInt8) ||| d)).toNat = d.toNat := by
    rw [toNat_sextet3, toNat_hunk2 hd]
    omega
  simp only [hunk, List.cons_append, List.nil_append, encodesBody, h0, h1, h2, h3]

/-- A group `xx==`: its one byte encodes back when the low four bits of the second value are
zero. -/
theorem encodesBody_pad1 (ha : a.toNat < 64) (hb : b.toNat < 64) (hb0 : b.toNat % 16 = 0) :
    encodesBody b64Table '='.toUInt8 [a <<< (2 : UInt8) ||| b >>> (4 : UInt8)] =
      [b64Table.getD a.toNat 0, b64Table.getD b.toNat 0, '='.toUInt8, '='.toUInt8] := by
  have h0 : (sextet0 (a <<< (2 : UInt8) ||| b >>> (4 : UInt8))).toNat = a.toNat := by
    rw [toNat_sextet0, toNat_hunk0 ha hb]
    omega
  have h1 : (sextet1 (a <<< (2 : UInt8) ||| b >>> (4 : UInt8)) 0).toNat = b.toNat := by
    rw [toNat_sextet1, toNat_hunk0 ha hb, UInt8.toNat_zero]
    omega
  simp only [encodesBody, h0, h1]

/-- A group `xxx=`: its two bytes encode back when the low two bits of the third value are
zero. -/
theorem encodesBody_pad2 (ha : a.toNat < 64) (hb : b.toNat < 64) (hc : c.toNat < 64)
    (hc0 : c.toNat % 4 = 0) :
    encodesBody b64Table '='.toUInt8
        [a <<< (2 : UInt8) ||| b >>> (4 : UInt8), b <<< (4 : UInt8) ||| c >>> (2 : UInt8)] =
      [b64Table.getD a.toNat 0, b64Table.getD b.toNat 0, b64Table.getD c.toNat 0,
        '='.toUInt8] := by
  have h0 : (sextet0 (a <<< (2 : UInt8) ||| b >>> (4 : UInt8))).toNat = a.toNat := by
    rw [toNat_sextet0, toNat_hunk0 ha hb]
    omega
  have h1 : (sextet1 (a <<< (2 : UInt8) ||| b >>> (4 : UInt8))
      (b <<< (4 : UInt8) ||| c >>> (2 : UInt8))).toNat = b.toNat := by
    rw [toNat_sextet1, toNat_hunk0 ha hb, toNat_hunk1 hc]
    omega
  have h2 : (sextet2 (b <<< (4 : UInt8) ||| c >>> (2 : UInt8)) 0).toNat = c.toNat := by
    rw [toNat_sextet2, toNat_hunk1 hc, UInt8.toNat_zero]
    omega
  simp only [encodesBody, h0, h1, h2]

end Encode

/-! ## The strict loop -/

/-- **Completeness.** The strict loop reads every encoded body back. -/
theorem unpackMStrictLoop_encodesBody (acc x : List UInt8) :
    unpackMStrictLoop acc (encodesBody b64Table '='.toUInt8 x) = .ok (acc ++ x) := by
  fun_induction encodesBody b64Table '='.toUInt8 x generalizing acc with
  | case1 s0 s1 s2 s ih =>
    -- neither the third nor the fourth character of a full group is `=`
    rw [List.cons_append, List.cons_append, List.cons_append, List.cons_append, List.nil_append,
      unpackMStrictLoop.eq_def]
    simp only [b64Xtable_b64Table (sextet0_lt _), b64Xtable_b64Table (sextet1_lt _ _),
      b64Xtable_b64Table (sextet2_lt _ _), b64Xtable_b64Table (sextet3_lt _),
      b64Table_ne_pad (sextet2_lt _ _), b64Table_ne_pad (sextet3_lt _), and_false, if_false,
      hunk_sextets, ih, List.append_assoc, List.cons_append, List.nil_append]
  | case2 s0 s1 =>
    have hc0 : sextet2 s1 0 &&& 3 = 0 := by
      rw [and_mask_eq_zero_iff _ 3 2 rfl, toNat_sextet2, UInt8.toNat_zero]
      omega
    rw [unpackMStrictLoop.eq_def]
    simp only [b64Xtable_b64Table (sextet0_lt _),
      b64Xtable_b64Table (sextet1_lt _ _), b64Xtable_b64Table (sextet2_lt _ _),
      b64Table_ne_pad (sextet2_lt _ _), if_false, and_self, if_true]
    rw [if_neg (not_not.mpr hc0), sextet0_shiftLeft_or, sextet1_shiftLeft_or]
  | case3 s0 =>
    have hb0 : sextet1 s0 0 &&& 15 = 0 := by
      rw [and_mask_eq_zero_iff _ 15 4 rfl, toNat_sextet1, UInt8.toNat_zero]
      omega
    rw [unpackMStrictLoop.eq_def]
    simp only [b64Xtable_b64Table (sextet0_lt _), b64Xtable_b64Table (sextet1_lt _ _), if_true]
    rw [if_neg (not_not.mpr hb0), sextet0_shiftLeft_or]
  | case4 => rw [List.append_nil]; rfl

/-- **Soundness.** The strict loop either reads an encoded body, or raises `invalid base64`;
no other error is raised. -/
theorem unpackMStrictLoop_cases (acc t : List UInt8) :
    (∃ x, encodesBody b64Table '='.toUInt8 x = t ∧ unpackMStrictLoop acc t = .ok (acc ++ x)) ∨
      unpackMStrictLoop acc t = .error invalidBase64 := by
  fun_induction unpackMStrictLoop acc t with
  | case1 acc => exact .inl ⟨[], rfl, by simp⟩
  | case3 acc x a y hx b hy hb0 =>
    -- `xx==` at the end of the input
    obtain ⟨ha, rfl⟩ := b64Table_of_b64Xtable hx
    obtain ⟨hb, rfl⟩ := b64Table_of_b64Xtable hy
    have hb0' : b.toNat % 2 ^ 4 = 0 := (and_mask_eq_zero_iff b 15 4 rfl).mp (not_not.mp hb0)
    exact .inl ⟨_, encodesBody_pad1 ha hb hb0', rfl⟩
  | case6 acc x a y hx b z hy hz c w rest hc hend hc0 =>
    -- `xxx=` at the end of the input
    obtain ⟨rfl, rfl⟩ := hend
    obtain ⟨ha, rfl⟩ := b64Table_of_b64Xtable hx
    obtain ⟨hb, rfl⟩ := b64Table_of_b64Xtable hy
    obtain ⟨hc', rfl⟩ := b64Table_of_b64Xtable hc
    have hc0' : c.toNat % 2 ^ 2 = 0 := (and_mask_eq_zero_iff c 3 2 rfl).mp (not_not.mp hc0)
    exact .inl ⟨_, encodesBody_pad2 ha hb hc' hc0', rfl⟩
  | case7 acc x a y hx b z hy hz c w rest hc hend d hw ih =>
    -- a full group, then the rest of the input
    rcases ih with ⟨x', hx', hok⟩ | herr
    · obtain ⟨ha, rfl⟩ := b64Table_of_b64Xtable hx
      obtain ⟨hb, rfl⟩ := b64Table_of_b64Xtable hy
      obtain ⟨hc', rfl⟩ := b64Table_of_b64Xtable hc
      obtain ⟨hd, rfl⟩ := b64Table_of_b64Xtable hw
      refine .inl ⟨hunk a b c d ++ x', ?_, ?_⟩
      · rw [encodesBody_hunk ha hb hc' hd, hx']
        rfl
      · rw [hok, List.append_assoc]
    · exact .inr herr
  | case2 | case4 | case5 | case8 | case9 | case10 | case11 => exact .inr rfl

/-! ## `unpack("m0")` -/

/-- `pack("m0")` writes the encoded body alone. -/
theorem packPack_m0 (b : List UInt8) : packPack .m 0 b = encodesBody b64Table '='.toUInt8 b := by
  simp [packPack, encodes]

/-- **`m0` is a bijection.** `unpack("m0")` of `t` returns `b` exactly when `pack("m0")` of `b`
is `t`; on every other string it raises `invalid base64`. -/
theorem unpackMStrict_exact :
    (∀ t b : List UInt8, packUnpackInternal .m 0 t = .ok b ↔ packPack .m 0 b = t) ∧
      ∀ t : List UInt8, (∀ b, packPack .m 0 b ≠ t) →
        packUnpackInternal .m 0 t = .error invalidBase64 := by
  have hunpack (t : List UInt8) : packUnpackInternal .m 0 t = unpackMStrictLoop [] t := by
    simp [packUnpackInternal, unpackMStrict]
  refine ⟨fun t b => ?_, fun t hne => ?_⟩
  · rw [hunpack, packPack_m0]
    constructor
    · intro h
      rcases unpackMStrictLoop_cases [] t with ⟨x, hx, hok⟩ | herr
      · rw [hok] at h
        cases h
        exact hx
      · rw [herr] at h
        cases h
    · rintro rfl
      simpa using unpackMStrictLoop_encodesBody [] b
  · rw [hunpack]
    rcases unpackMStrictLoop_cases [] t with ⟨x, hx, -⟩ | herr
    · exact absurd (by rw [packPack_m0, hx]) (hne x)
    · exact herr

-- `QQ==` is `A`; `QR==` has a spare bit set and is refused
example : packUnpackInternal .m 0 ("QQ==".toList.map Char.toUInt8) = .ok ['A'.toUInt8] ∧
    packUnpackInternal .m 0 ("QR==".toList.map Char.toUInt8) = .error invalidBase64 := by
  decide

end CRuby.Pack
