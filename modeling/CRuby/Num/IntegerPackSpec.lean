import CRuby.Num.IntegerPack
import CRuby.Lib.BitFields
import Mathlib.Data.Nat.Digits.Lemmas
import Mathlib.Tactic.Ring

/-!
# What `rb_integer_pack` and `rb_integer_unpack` compute

For words of one byte with `nails` of its bits unused (`0 < nails < 8`), each word holds
`k = 8 - nails` bits of the value:

* `rbAbsintNumwords_eq`: `rb_absint_numwords(val, w)` is `⌈size |val| / w⌉`, through the bytes
  and the leading zero bits `rb_absint_size` counts;
* `rbIntegerPack_bytes`: `rb_integer_pack` writes the `numwords` base-`2 ^ k` digits of `|val|`,
  most significant first, and returns the sign, doubled when `|val|` does not fit;
* `rbIntegerUnpack_bytes`: `rb_integer_unpack` reads the low `k` bits of each byte as a
  base-`2 ^ k` digit, the last byte least significant.

Both loops are proved through their accumulator: the bits held in `dd` and the digits not yet
read (or already written) always make up the value (`PackDd.val`, `UnpackDd.val`).
-/

namespace CRuby.Num

/-! ## Digits -/

/-- `n` in `m` digits of `k` bits, least significant first. -/
def chunks (k : ℕ) : ℕ → ℕ → List ℕ
  | 0, _ => []
  | m + 1, n => n % 2 ^ k :: chunks k m (n / 2 ^ k)

theorem length_chunks (k m n : ℕ) : (chunks k m n).length = m := by
  induction m generalizing n with
  | zero => rfl
  | succ m ih => simp [chunks, ih]

theorem chunks_lt (k m n : ℕ) : ∀ c ∈ chunks k m n, c < 2 ^ k := by
  induction m generalizing n with
  | zero => simp [chunks]
  | succ m ih =>
    intro c hc
    rcases List.mem_cons.mp hc with rfl | hc
    · exact Nat.mod_lt _ (Nat.two_pow_pos k)
    · exact ih _ c hc

theorem chunks_zero (k m : ℕ) : chunks k m 0 = List.replicate m 0 := by
  induction m with
  | zero => rfl
  | succ m ih => simp [chunks, ih, List.replicate_succ]

/-- The digits read back are the value modulo the words' room. -/
theorem ofDigits_chunks (k m n : ℕ) : Nat.ofDigits (2 ^ k) (chunks k m n) = n % 2 ^ (k * m) := by
  induction m generalizing n with
  | zero => simp [chunks, Nat.mod_one]
  | succ m ih =>
    rw [chunks, Nat.ofDigits_cons, ih, show k * (m + 1) = k + k * m by ring, pow_add, Nat.mod_mul]

/-- A value below `2 ^ j` with `t ≠ 0` above it has `j` bits more than `t`. -/
theorem size_add_two_pow_mul {a t j : ℕ} (ha : a < 2 ^ j) (ht : 0 < t) :
    (a + 2 ^ j * t).size = j + t.size := by
  have hts := Nat.lt_size_self t
  have hlow : 2 ^ (t.size - 1) ≤ t := Nat.lt_size.mp (by have := Nat.size_pos.mpr ht; omega)
  apply Nat.le_antisymm
  · apply Nat.size_le.mpr
    calc a + 2 ^ j * t < 2 ^ j * (t + 1) := by
          rw [Nat.mul_succ, Nat.add_comm]
          exact Nat.add_lt_add_left ha _
      _ ≤ 2 ^ j * 2 ^ t.size := Nat.mul_le_mul_left _ hts
      _ = 2 ^ (j + t.size) := (pow_add 2 j t.size).symm
  · have hsz : j + (t.size - 1) < (a + 2 ^ j * t).size := by
      apply Nat.lt_size.mpr
      calc 2 ^ (j + (t.size - 1)) = 2 ^ j * 2 ^ (t.size - 1) := pow_add 2 j _
        _ ≤ 2 ^ j * t := Nat.mul_le_mul_left _ hlow
        _ ≤ a + 2 ^ j * t := Nat.le_add_left _ _
    have := Nat.size_pos.mpr ht
    omega

/-- Digits with a non-zero top digit have no top zeros to drop. -/
theorem stripTop_of_getLast_ne_zero {ds : List ℕ} (h : ∀ hne : ds ≠ [], ds.getLast hne ≠ 0) :
    stripTop ds = ds := by
  rcases List.eq_nil_or_concat ds with rfl | ⟨init, top, rfl⟩
  · rfl
  · have htop : top ≠ 0 := by simpa using h (by simp)
    simp [stripTop, htop]

theorem stripTop_digits (n : ℕ) : stripTop (Nat.digits (2 ^ 32) n) = Nat.digits (2 ^ 32) n := by
  apply stripTop_of_getLast_ne_zero
  intro hne
  exact Nat.getLast_digit_ne_zero _ (Nat.digits_ne_nil_iff_ne_zero.mp hne)

/-- Whether `val` is a Fixnum (two digits in `fixbuf`) or a Bignum, its digits with the top
zeros dropped are those of `|val|`. -/
theorem stripTop_bdigitsOf (x : ℤ) : stripTop (bdigitsOf x) = Nat.digits (2 ^ 32) x.natAbs := by
  unfold bdigitsOf
  split_ifs with hfix
  · -- a Fixnum: `|v| ≤ 2 ^ 62`, so its high digit is `|v| / 2 ^ 32`
    have hlt : x.natAbs ≤ 2 ^ 62 := by
      have h := fixableP_iff.mp hfix
      have hz : (x.natAbs : ℤ) ≤ 2 ^ 62 := by
        rw [Int.natCast_natAbs, abs_le]
        constructor <;> linarith [h.1, h.2]
      exact_mod_cast hz
    have hhi : x.natAbs / 2 ^ 32 % 2 ^ 32 = x.natAbs / 2 ^ 32 := Nat.mod_eq_of_lt (by omega)
    rw [hhi]
    rcases Nat.eq_zero_or_pos x.natAbs with h0 | hpos
    · simp [h0, stripTop]
    rcases Nat.lt_or_ge x.natAbs (2 ^ 32) with hsmall | hbig
    · rw [Nat.digits_of_lt _ _ (by omega) hsmall, Nat.mod_eq_of_lt hsmall, Nat.div_eq_of_lt hsmall]
      simp [stripTop, Nat.pos_iff_ne_zero.mp hpos]
    · have hdiv : 0 < x.natAbs / 2 ^ 32 := Nat.div_pos hbig (by norm_num)
      rw [Nat.digits_def' (by norm_num) hpos,
        Nat.digits_of_lt _ _ (by omega) (by omega)]
      exact stripTop_of_getLast_ne_zero (by simp; omega)
  · exact stripTop_digits _

/-- The bits of `|val|` are those of its top digit above `32` bits for each other digit. -/
theorem size_eq_of_digits {n : ℕ} (hn : n ≠ 0) :
    n.size = 32 * ((Nat.digits (2 ^ 32) n).length - 1) +
      ((Nat.digits (2 ^ 32) n).getLast (Nat.digits_ne_nil_iff_ne_zero.mpr hn)).size := by
  set ds := Nat.digits (2 ^ 32) n with hds
  have hne : ds ≠ [] := Nat.digits_ne_nil_iff_ne_zero.mpr hn
  have htop := Nat.getLast_digit_ne_zero (2 ^ 32) hn
  have hsplit := (List.dropLast_append_getLast hne).symm
  have hlen : ds.dropLast.length = ds.length - 1 := List.length_dropLast
  -- `n` is the lower digits plus the top digit times `2 ^ (32 * (length - 1))`
  have hval : n = Nat.ofDigits (2 ^ 32) ds.dropLast +
      2 ^ (32 * (ds.length - 1)) * ds.getLast hne := by
    conv_lhs => rw [← Nat.ofDigits_digits (2 ^ 32) n, ← hds, hsplit]
    rw [Nat.ofDigits_append, Nat.ofDigits_singleton, hlen, ← pow_mul]
  have hlow : Nat.ofDigits (2 ^ 32) ds.dropLast < 2 ^ (32 * (ds.length - 1)) := by
    rw [pow_mul, ← hlen]
    exact Nat.ofDigits_lt_base_pow_length (by norm_num)
      (fun d hd => Nat.digits_lt_base (by norm_num) (List.dropLast_subset _ hd))
  conv_lhs => rw [hval]
  exact size_add_two_pow_mul hlow (Nat.pos_of_ne_zero htop)

/-- **`rb_absint_size`** counts the bits of `|val|`: its bytes times 8 less the leading zero bits
of the top byte. -/
theorem rbAbsintSize_bits (x : ℤ) :
    (rbAbsintSize (bdigitsOf x)).1 * 8 - (rbAbsintSize (bdigitsOf x)).2 = x.natAbs.size := by
  unfold rbAbsintSize
  rw [stripTop_bdigitsOf]
  rcases Nat.eq_zero_or_pos x.natAbs with h0 | hpos
  · simp [h0]
  · have hn : x.natAbs ≠ 0 := Nat.pos_iff_ne_zero.mp hpos
    have hne : Nat.digits (2 ^ 32) x.natAbs ≠ [] := Nat.digits_ne_nil_iff_ne_zero.mpr hn
    rw [List.getLast?_eq_some_getLast hne]
    dsimp only
    have hsize := size_eq_of_digits hn
    have htop : (Nat.digits (2 ^ 32) x.natAbs).getLast hne < 2 ^ 32 :=
      Nat.digits_lt_base (by norm_num) (List.getLast_mem hne)
    have hts : ((Nat.digits (2 ^ 32) x.natAbs).getLast hne).size ≤ 32 := Nat.size_le.mpr htop
    have hlen : 0 < (Nat.digits (2 ^ 32) x.natAbs).length := List.length_pos_of_ne_nil hne
    unfold nlz
    omega

/-- **`rb_absint_numwords(val, w)`** is the number of `w`-bit words that hold the bits of
`|val|`. -/
theorem rbAbsintNumwords_eq (x : ℤ) {w : ℕ} (hw : 0 < w) :
    rbAbsintNumwords x w = (x.natAbs.size + w - 1) / w := by
  have hbits := rbAbsintSize_bits x
  unfold rbAbsintNumwords
  rw [if_neg (Nat.pos_iff_ne_zero.mp hw)]
  rcases hsz : rbAbsintSize (bdigitsOf x) with ⟨numbytes, nlzBits⟩
  rw [hsz] at hbits
  dsimp only at hbits ⊢
  unfold absintNumwordsSmall
  dsimp only
  rw [hbits]
  split_ifs with hmod
  · -- `⌈s / w⌉ = s / w` when `w` divides `s`
    obtain ⟨q, hq⟩ := Nat.dvd_of_mod_eq_zero hmod
    rw [hq, Nat.mul_div_cancel_left _ hw, show w * q + w - 1 = (w - 1) + w * q by omega,
      Nat.add_mul_div_left _ _ hw, Nat.div_eq_of_lt (by omega), zero_add]
  · -- otherwise one more word for the rest
    have hr : 0 < x.natAbs.size % w := Nat.pos_of_ne_zero hmod
    have hlt := Nat.mod_lt x.natAbs.size hw
    have hdm := Nat.div_add_mod x.natAbs.size w
    generalize x.natAbs.size / w = q at hdm ⊢
    generalize x.natAbs.size % w = r at hr hlt hdm
    rw [← hdm, show w * q + r + w - 1 = (r - 1) + w * (q + 1) by rw [Nat.mul_succ]; omega,
      Nat.add_mul_div_left _ _ hw, Nat.div_eq_of_lt (by omega), zero_add]

/-! ## The loop of `bary_pack` -/

namespace PackDd

/-- The value still to be written: the bits held in `dd` and, above them, the digits not read. -/
def val (s : PackDd) : ℕ := s.dd + 2 ^ s.numbits * Nat.ofDigits (2 ^ 32) s.dp

/-- The invariant of the loop: `dd` holds at most `numbits_in_dd ≤ 64` bits, and the digits not
read are the `BDIGIT`s of a value, with no zero at the top. -/
structure Inv (s : PackDd) : Prop where
  dd_lt : s.dd < 2 ^ s.numbits
  numbits_le : s.numbits ≤ 64
  dp_digits : s.dp = Nat.digits (2 ^ 32) (Nat.ofDigits (2 ^ 32) s.dp)

end PackDd

/-- The digits of a value are its digits, and they are left only while the value is not zero. -/
theorem PackDd.Inv.dp_eq_nil {s : PackDd} (h : s.Inv) (h0 : Nat.ofDigits (2 ^ 32) s.dp = 0) :
    s.dp = [] := by
  rw [h.dp_digits, h0, Nat.digits_zero]

/-- The loop starts on the digits of the value, with `dd` empty. -/
theorem packDd_start (n : ℕ) : (PackDd.mk (Nat.digits (2 ^ 32) n) 0 0).Inv ∧
    (PackDd.mk (Nat.digits (2 ^ 32) n) 0 0).val = n := by
  refine ⟨⟨Nat.two_pow_pos 0, by norm_num, by rw [Nat.ofDigits_digits]⟩, ?_⟩
  simp [PackDd.val, Nat.ofDigits_digits]

/-- **`FILL_DD`** keeps the value and the invariant, and leaves at least 32 bits in `dd`: a digit
comes in when there is room, and past the last digit `dd` counts as full. -/
theorem PackDd.Inv.fill {s : PackDd} (h : s.Inv) :
    (integerPackFillDd s).Inv ∧ (integerPackFillDd s).val = s.val ∧
      32 ≤ (integerPackFillDd s).numbits := by
  have hdd := h.dd_lt
  have hnb := h.numbits_le
  have hdig := h.dp_digits
  rw [integerPackFillDd]
  rcases hdp : s.dp with _ | ⟨d, dp⟩
  · -- past the last digit: `numbits_in_dd = 64`
    have hlt : s.dd < 2 ^ 64 := lt_of_lt_of_le hdd (Nat.pow_le_pow_right (by norm_num) hnb)
    refine ⟨⟨hlt, Nat.le_refl 64, by rw [hdp] at hdig; exact hdig⟩, ?_, by norm_num⟩
    simp [PackDd.val, hdp]
  · rw [hdp] at hdig
    dsimp only
    -- the digits are those of a non-zero value `r`: `d = r % 2 ^ 32` and `dp` those of the rest
    set r := Nat.ofDigits (2 ^ 32) (d :: dp) with hr
    have hr0 : r ≠ 0 := by
      intro h0
      rw [h0, Nat.digits_zero] at hdig
      exact List.cons_ne_nil _ _ hdig
    rw [Nat.digits_def' (by norm_num) (Nat.pos_of_ne_zero hr0)] at hdig
    obtain ⟨hd, hdp'⟩ := List.cons.inj hdig
    have hdlt : d < 2 ^ 32 := by rw [hd]; exact Nat.mod_lt _ (by norm_num)
    have hrest : Nat.ofDigits (2 ^ 32) dp = r / 2 ^ 32 := by rw [hdp', Nat.ofDigits_digits]
    split_ifs with hroom
    · -- a digit comes in above the bits held
      have hor : s.dd ||| d <<< s.numbits = s.dd + 2 ^ s.numbits * d := by
        rw [Nat.or_comm, Nat.shiftLeft_eq,
          BitFields.or_eq_add_of_lt s.numbits (Nat.mul_mod_left _ _) hdd]
        ring
      have hnew : s.dd + 2 ^ s.numbits * d < 2 ^ (s.numbits + 32) := by
        rw [pow_add]
        calc s.dd + 2 ^ s.numbits * d < 2 ^ s.numbits * (d + 1) := by
              rw [Nat.mul_succ, Nat.add_comm]; exact Nat.add_lt_add_left hdd _
          _ ≤ 2 ^ s.numbits * 2 ^ 32 := Nat.mul_le_mul_left _ hdlt
      have h64 : 2 ^ (s.numbits + 32) ≤ 2 ^ 64 := Nat.pow_le_pow_right (by norm_num) (by omega)
      rw [hor, Nat.mod_eq_of_lt (lt_of_lt_of_le hnew h64)]
      dsimp only
      refine ⟨⟨hnew, by dsimp only; omega, by rw [hrest]; exact hdp'⟩, ?_, by omega⟩
      simp only [PackDd.val, hdp, Nat.ofDigits_cons, pow_add]
      ring
    · -- no room: nothing changes, and `dd` already holds more than 32 bits
      refine ⟨h, rfl, by omega⟩

/-- **`TAKE_LOWBITS(n)`** of at most the bits held: the low `n` bits of the value, and the
value shifted down by `n`. -/
theorem PackDd.Inv.take {s : PackDd} (h : s.Inv) {n : ℕ} (hn : n ≤ s.numbits) :
    (integerPackTakeLowbits n s).1 = s.val % 2 ^ n ∧ (integerPackTakeLowbits n s).2.Inv ∧
      (integerPackTakeLowbits n s).2.val = s.val / 2 ^ n := by
  have hdd := h.dd_lt
  have hsplit : 2 ^ s.numbits = 2 ^ n * 2 ^ (s.numbits - n) := by
    rw [← pow_add, Nat.add_sub_cancel' hn]
  have hpos : 0 < 2 ^ n := Nat.two_pow_pos n
  simp only [integerPackTakeLowbits, PackDd.val, Nat.and_two_pow_sub_one_eq_mod,
    Nat.shiftRight_eq_div_pow]
  refine ⟨?_, ⟨?_, by have := h.numbits_le; dsimp only; omega, h.dp_digits⟩, ?_⟩
  · rw [hsplit, mul_assoc, Nat.add_mul_mod_self_left]
  · apply Nat.div_lt_of_lt_mul
    rw [← hsplit]
    exact hdd
  · rw [hsplit, mul_assoc, Nat.add_mul_div_left _ _ hpos]

theorem packByte_eq (n : ℕ) (s : PackDd) :
    packByte n s = (UInt8.ofNat (integerPackTakeLowbits n (integerPackFillDd s)).1,
      (integerPackTakeLowbits n (integerPackFillDd s)).2) := rfl

/-- **A byte of `n ≤ 32` bits**: the low `n` bits of the value. -/
theorem PackDd.Inv.packByte {s : PackDd} (h : s.Inv) {n : ℕ} (hn : n ≤ 32) :
    (packByte n s).1 = UInt8.ofNat (s.val % 2 ^ n) ∧ (packByte n s).2.Inv ∧
      (packByte n s).2.val = s.val / 2 ^ n := by
  obtain ⟨hf, hval, hbits⟩ := h.fill
  obtain ⟨htake, hinv, hval'⟩ := hf.take (n := n) (by omega)
  rw [hval] at htake hval'
  rw [packByte_eq]
  exact ⟨by rw [htake], hinv, hval'⟩

/-- A word of one byte with `k` bits of the value: the byte of the low `k` bits. -/
theorem integerPackWord_one (s : PackDd) {k : ℕ} (hk : 0 < k) :
    integerPackWord 0 k 1 s = ([(packByte k s).1], (packByte k s).2) := by
  simp [integerPackWord, packFullBytes, Nat.pos_iff_ne_zero.mp hk]

/-- **The word loop** on words of one byte with `k` bits: the `m` base-`2 ^ k` digits of the
value, least significant first, and the value shifted down by `k * m`. -/
theorem PackDd.Inv.packWords_one {s : PackDd} (h : s.Inv) {k : ℕ} (hk : 0 < k) (hk32 : k ≤ 32)
    (m : ℕ) :
    (integerPackWords 0 k 1 m s).1 = (chunks k m s.val).map (fun c => [UInt8.ofNat c]) ∧
      (integerPackWords 0 k 1 m s).2.Inv ∧
      (integerPackWords 0 k 1 m s).2.val = s.val / 2 ^ (k * m) := by
  induction m generalizing s with
  | zero => exact ⟨rfl, h, by simp [integerPackWords]⟩
  | succ m ih =>
    obtain ⟨hb, hinv, hval⟩ := h.packByte hk32
    obtain ⟨hws, hinv', hval'⟩ := ih hinv
    refine ⟨?_, by simpa [integerPackWords, integerPackWord_one _ hk] using hinv', ?_⟩
    · simp only [integerPackWords, integerPackWord_one _ hk, chunks, List.map_cons, hb, ← hval]
      rw [hws]
    · simp only [integerPackWords, integerPackWord_one _ hk]
      rw [hval', hval, Nat.div_div_eq_div_mul, ← pow_add, Nat.mul_succ, Nat.add_comm (k * m)]

/-- **The overflow tests** after the loop: the sign is doubled exactly when bits of the value are
left, in the digits or in `dd`. -/
theorem PackDd.Inv.overflow_sign {s : PackDd} (h : s.Inv) (sign : ℤ) :
    (if (integerPackFillDd s).dp ≠ [] ∨ 1 < (integerPackFillDd s).dd then sign * 2
      else if (integerPackFillDd s).dd = 1 then sign * 2 else sign) =
      if s.val = 0 then sign else sign * 2 := by
  obtain ⟨hf, hval, -⟩ := h.fill
  rw [← hval]
  set t := integerPackFillDd s
  by_cases hdp : t.dp = []
  · have hv : t.val = t.dd := by simp [PackDd.val, hdp]
    rw [hv]
    by_cases h0 : t.dd = 0
    · simp [hdp, h0]
    · have : 1 < t.dd ∨ t.dd = 1 := by omega
      rcases this with h1 | h1 <;> simp [hdp, h0, h1]
  · have hne : Nat.ofDigits (2 ^ 32) t.dp ≠ 0 := fun h0 => hdp (hf.dp_eq_nil h0)
    have hv : t.val ≠ 0 := by
      simp only [PackDd.val]
      have := Nat.mul_ne_zero (pow_ne_zero t.numbits (two_ne_zero)) hne
      omega
    simp [hdp, hv]

/-- A word of one byte has no full byte and `8 - nails` bits in its partial byte. -/
theorem integerPackLoopSetup_one {nails : ℕ} (h0 : 0 < nails) (h8 : nails < 8) :
    integerPackLoopSetup 1 nails = (0, 8 - nails) := by
  have hmod : nails % 8 = nails := Nat.mod_eq_of_lt h8
  have hdiv : nails / 8 = 0 := Nat.div_eq_of_lt h8
  have hpart : (if 8 - nails = 8 then 0 else 8 - nails) = 8 - nails := if_neg (by omega)
  simp only [integerPackLoopSetup, hmod, hdiv, hpart]
  rw [if_pos (by omega)]

/-- Words of one byte, most significant first: the bytes reversed. -/
theorem integerPackLayout_one (l : List ℕ) :
    integerPackLayout true true (l.map fun c => [UInt8.ofNat c]) = (l.map UInt8.ofNat).reverse := by
  simp only [integerPackLayout, if_true, List.map_map]
  induction l with
  | nil => rfl
  | cons c l ih => simp [ih]

/-- **The generic path of `bary_pack`** on words of one byte with `nails` unused bits: the
`numwords` base-`2 ^ (8 - nails)` digits of the value, most significant first, and the sign,
doubled when the value does not fit. -/
theorem baryPackGeneric_one {n m nails : ℕ} (hn : n ≠ 0) (hm : 0 < m) (h0 : 0 < nails)
    (h8 : nails < 8) (sign : ℤ) :
    baryPackGeneric sign (Nat.digits (2 ^ 32) n) m 1 nails true true =
      (if n < 2 ^ ((8 - nails) * m) then sign else sign * 2,
        ((chunks (8 - nails) m n).map UInt8.ofNat).reverse) := by
  obtain ⟨hinv, hval⟩ := packDd_start n
  obtain ⟨hws, hinv', hval'⟩ := hinv.packWords_one (k := 8 - nails) (by omega) (by omega) m
  rw [hval] at hws hval'
  rw [baryPackGeneric, if_neg (by omega), if_neg (Nat.digits_ne_nil_iff_ne_zero.mpr hn),
    integerPackLoopSetup_one h0 h8]
  dsimp only
  rw [hinv'.overflow_sign, hval', hws, integerPackLayout_one]
  simp only [Nat.div_eq_zero_iff_lt (Nat.two_pow_pos _)]

/-- **`rb_integer_pack`** into words of one byte with `nails` unused bits (`0 < nails < 8`),
most significant first: the `numwords` base-`2 ^ (8 - nails)` digits of `|val|`, and the sign
of `val`, doubled when `|val|` does not fit (0 for zero). -/
theorem rbIntegerPack_bytes (x : ℤ) {m nails : ℕ} (hm : 0 < m) (h0 : 0 < nails) (h8 : nails < 8) :
    rbIntegerPack x m 1 nails true true =
      (if x = 0 then 0
        else (if x < 0 then -1 else 1) * (if x.natAbs < 2 ^ ((8 - nails) * m) then 1 else 2),
        ((chunks (8 - nails) m x.natAbs).map UInt8.ofNat).reverse) := by
  rw [rbIntegerPack, baryPack, stripTop_bdigitsOf]
  by_cases hx : x = 0
  · -- `MEMZERO`
    subst hx
    simp [chunks_zero]
  · have hn : x.natAbs ≠ 0 := Int.natAbs_ne_zero.mpr hx
    have hne : Nat.digits (2 ^ 32) x.natAbs ≠ [] := Nat.digits_ne_nil_iff_ne_zero.mpr hn
    have hsign : (if x < 0 then (-1 : ℤ) else 1) ≠ 0 := by split_ifs <;> decide
    rw [if_neg hne, if_neg hsign, baryPackGeneric_one hn hm h0 h8, if_neg hx]
    split_ifs <;> simp

/-! ## The loop of `bary_unpack_internal` -/

namespace UnpackDd

/-- The bits pushed so far: 32 for each digit written and those held in `dd`. -/
def bits (s : UnpackDd) : ℕ := 32 * s.out.length + s.numbits

/-- The value of the bits pushed so far: the digits written and, above them, `dd`. -/
def val (s : UnpackDd) : ℕ := Nat.ofDigits (2 ^ 32) s.out + 2 ^ (32 * s.out.length) * s.dd

/-- The invariant between two pushes: `dd` holds fewer than 32 bits. -/
structure Inv (s : UnpackDd) : Prop where
  dd_lt : s.dd < 2 ^ s.numbits
  numbits_lt : s.numbits < 32

end UnpackDd

/-- **The flush loop** writes out the full digits of `dd` and keeps the value and the bits. -/
theorem unpackFlush_spec (s : UnpackDd) (h : s.dd < 2 ^ s.numbits) :
    (unpackFlush s).val = s.val ∧ (unpackFlush s).bits = s.bits ∧ (unpackFlush s).Inv := by
  fun_induction unpackFlush s with
  | case1 s hnb ih =>
    -- a full digit: `BIGLO(dd)` written, `dd` shifted down by 32
    have hsplit : 2 ^ s.numbits = 2 ^ 32 * 2 ^ (s.numbits - 32) := by
      rw [← pow_add, Nat.add_sub_cancel' hnb]
    have hlt : s.dd / 2 ^ 32 < 2 ^ (s.numbits - 32) := by
      apply Nat.div_lt_of_lt_mul
      rw [← hsplit]
      exact h
    obtain ⟨hval, hbits, hinv⟩ := ih (by rw [Nat.shiftRight_eq_div_pow]; exact hlt)
    refine ⟨?_, ?_, hinv⟩
    · rw [hval]
      simp only [UnpackDd.val, Nat.ofDigits_append, Nat.ofDigits_singleton, List.length_append,
        List.length_singleton, Nat.shiftRight_eq_div_pow, Nat.mul_succ, pow_add]
      have hdm := Nat.mod_add_div s.dd (2 ^ 32)
      calc Nat.ofDigits (2 ^ 32) s.out + (2 ^ 32) ^ s.out.length * (s.dd % 2 ^ 32) +
            2 ^ (32 * s.out.length) * 2 ^ 32 * (s.dd / 2 ^ 32)
          = Nat.ofDigits (2 ^ 32) s.out +
            2 ^ (32 * s.out.length) * (s.dd % 2 ^ 32 + 2 ^ 32 * (s.dd / 2 ^ 32)) := by
            rw [← pow_mul]; ring
        _ = Nat.ofDigits (2 ^ 32) s.out + 2 ^ (32 * s.out.length) * s.dd := by rw [hdm]
    · rw [hbits]
      simp only [UnpackDd.bits, List.length_append, List.length_singleton]
      omega
  | case2 s hnb => exact ⟨rfl, rfl, ⟨h, by omega⟩⟩

/-- **`PUSH_BITS`** of `w ≤ 32` bits: the value grows by the data above the bits pushed so far. -/
theorem UnpackDd.Inv.pushBits {s : UnpackDd} (h : s.Inv) {d w : ℕ} (hd : d < 2 ^ w)
    (hw : w ≤ 32) :
    (integerUnpackPushBits d w s).val = s.val + 2 ^ s.bits * d ∧
      (integerUnpackPushBits d w s).bits = s.bits + w ∧ (integerUnpackPushBits d w s).Inv := by
  have hdd := h.dd_lt
  have hnb := h.numbits_lt
  -- the data goes above the bits held, and the sum stays within 64 bits
  have hor : s.dd ||| d <<< s.numbits = s.dd + 2 ^ s.numbits * d := by
    rw [Nat.or_comm, Nat.shiftLeft_eq, BitFields.or_eq_add_of_lt s.numbits (Nat.mul_mod_left _ _) hdd]
    ring
  have hnew : s.dd + 2 ^ s.numbits * d < 2 ^ (s.numbits + w) := by
    rw [pow_add]
    calc s.dd + 2 ^ s.numbits * d < 2 ^ s.numbits * (d + 1) := by
          rw [Nat.mul_succ, Nat.add_comm]; exact Nat.add_lt_add_left hdd _
      _ ≤ 2 ^ s.numbits * 2 ^ w := Nat.mul_le_mul_left _ hd
  have h64 : 2 ^ (s.numbits + w) ≤ 2 ^ 64 := Nat.pow_le_pow_right (by norm_num) (by omega)
  obtain ⟨hval, hbits, hinv⟩ := unpackFlush_spec ⟨s.out, s.dd + 2 ^ s.numbits * d, s.numbits + w⟩
    hnew
  rw [integerUnpackPushBits, hor, Nat.mod_eq_of_lt (lt_of_lt_of_le hnew h64)]
  refine ⟨?_, ?_, hinv⟩
  · rw [hval]
    simp only [UnpackDd.val, UnpackDd.bits, pow_add]
    ring
  · rw [hbits]
    simp only [UnpackDd.bits]
    omega

/-- A word of one byte with `k` bits: the low `k` bits of the byte pushed. -/
theorem integerUnpackWord_one (k : ℕ) (hk : 0 < k) (b : UInt8) (s : UnpackDd) :
    integerUnpackWord 0 k [b] s = integerUnpackPushBits (b.toNat % 2 ^ k) k s := by
  simp [integerUnpackWord, Nat.pos_iff_ne_zero.mp hk, Nat.and_two_pow_sub_one_eq_mod]

/-- **The word loop** over words of one byte with `k ≤ 32` bits: the value grows by the bytes
read as base-`2 ^ k` digits, least significant first. -/
theorem UnpackDd.Inv.foldl_words {s : UnpackDd} (h : s.Inv) {k : ℕ} (hk : 0 < k) (hk32 : k ≤ 32)
    (bs : List UInt8) :
    ((bs.map fun b => [b]).foldl (fun s w => integerUnpackWord 0 k w s) s).val =
        s.val + 2 ^ s.bits * Nat.ofDigits (2 ^ k) (bs.map fun b => b.toNat % 2 ^ k) ∧
      ((bs.map fun b => [b]).foldl (fun s w => integerUnpackWord 0 k w s) s).bits =
        s.bits + k * bs.length ∧
      ((bs.map fun b => [b]).foldl (fun s w => integerUnpackWord 0 k w s) s).Inv := by
  induction bs generalizing s with
  | nil => simp [h]
  | cons b bs ih =>
    obtain ⟨hval, hbits, hinv⟩ :=
      h.pushBits (d := b.toNat % 2 ^ k) (Nat.mod_lt _ (Nat.two_pow_pos k)) hk32
    obtain ⟨hval', hbits', hinv'⟩ := ih hinv
    simp only [List.map_cons, List.foldl_cons, integerUnpackWord_one k hk]
    refine ⟨?_, ?_, hinv'⟩
    · rw [hval', hval, hbits, Nat.ofDigits_cons, pow_add]
      ring
    · rw [hbits', hbits, List.length_cons]
      ring

/-- The words of a buffer of one-byte words are its bytes. -/
theorem bufWords_one (buf : List UInt8) : bufWords 1 buf.length buf = buf.map fun b => [b] := by
  induction buf with
  | nil => rfl
  | cons b buf ih => simp [bufWords, ih]

/-- **`rb_integer_unpack`** of words of one byte with `nails` unused bits (`0 < nails < 8`), most
significant first: the low `8 - nails` bits of each byte as a base-`2 ^ (8 - nails)` digit, the
last byte least significant. -/
theorem rbIntegerUnpack_bytes {buf : List UInt8} (hbuf : buf ≠ []) {nails : ℕ} (h0 : 0 < nails)
    (h8 : nails < 8) :
    rbIntegerUnpack buf buf.length 1 nails true true =
      (Nat.ofDigits (2 ^ (8 - nails)) (buf.reverse.map fun b => b.toNat % 2 ^ (8 - nails)) : ℕ) := by
  have hlen : 0 < buf.length := List.length_pos_of_ne_nil hbuf
  have hnum : ((1 * 8 - nails) * buf.length + 32 - 1) / 32 ≠ 0 := by
    apply Nat.pos_iff_ne_zero.mp
    apply Nat.div_pos _ (by norm_num)
    have : 1 ≤ (1 * 8 - nails) * buf.length := Nat.mul_pos (by omega) hlen
    omega
  -- the loop reads the bytes from the last one
  have horder : integerUnpackOrder true true (bufWords 1 buf.length buf) =
      buf.reverse.map fun b => [b] := by
    simp [integerUnpackOrder, bufWords_one, List.map_reverse]
  obtain ⟨hval, -, hinv⟩ := (show UnpackDd.Inv ⟨[], 0, 0⟩ from ⟨Nat.two_pow_pos 0, by norm_num⟩).foldl_words
    (k := 8 - nails) (by omega) (by omega) buf.reverse
  simp only [UnpackDd.val, UnpackDd.bits, Nat.ofDigits_nil, List.length_nil, Nat.mul_zero,
    Nat.add_zero, pow_zero, Nat.one_mul, Nat.zero_add] at hval
  simp only [rbIntegerUnpack, integerUnpackNumBdigitsSmall, baryUnpackGeneric, if_pos hnum,
    integerPackLoopSetup_one h0 h8, horder]
  set t := (buf.reverse.map fun b => [b]).foldl (fun s w => integerUnpackWord 0 (8 - nails) w s)
    ⟨[], 0, 0⟩ with ht
  -- the last digit is what is left in `dd`, below `2 ^ 32`
  have hdd : t.dd < 2 ^ 32 :=
    lt_of_lt_of_le hinv.dd_lt (Nat.pow_le_pow_right (by norm_num) (Nat.le_of_lt hinv.numbits_lt))
  have hout : Nat.ofDigits (2 ^ 32) (if t.dd ≠ 0 then t.out ++ [t.dd % 2 ^ 32] else t.out) =
      Nat.ofDigits (2 ^ 32) t.out + 2 ^ (32 * t.out.length) * t.dd := by
    split_ifs with h0'
    · rw [Nat.ofDigits_append, Nat.ofDigits_singleton, Nat.mod_eq_of_lt hdd, ← pow_mul]
    · rw [not_not.mp h0', Nat.mul_zero, Nat.add_zero]
  rw [one_mul, Nat.cast_inj, Nat.ofDigits_append_replicate_zero, hout, hval]

end CRuby.Num
