import CRuby.Num.Fixnum
import CRuby.Lib.WordBytes
import CRuby.Lib.Except

/-!
# `w_long` and `r_long` (marshal.c)

A dump stores its lengths, counts and Fixnums as *longs*. A long in `(-124, 123)` is one byte.
Any other long is a signed count `n` followed by the `|n|` low bytes of the value, least
significant first; a negative count means that all the bytes above them are ones. An LP64
build is modelled: `long` is a 64-bit word (`Long`), and `w_long` refuses anything that does not
fit in 32 bits.

Loading reads from a String source. A reader is given the bytes from `arg->offset` on, and it
returns the bytes it has not read.

* `wLong` raises `long too big to dump` exactly outside `[-2 ^ 31, 2 ^ 31)` (`wLong_guard_iff`).
  Its loop always stops by its eighth round (`wLongLoop_isSome`), so the C code never writes
  an unset `buf[0]`.
* `rLong` raises nothing but `marshal data too short` (`rLong_ok_or_tooShort`). `long_toobig` is dead
  code on LP64: a count byte above `4` is read as a small value.
* `rLong` reads back what `wLong` writes, followed by anything (`rLong_wLong`).
-/

namespace CRuby.Marshal

open CRuby.Num WordBytes TwosComplement

/-- The exceptions that the modelled paths of marshal.c raise. -/
inductive MarshalError where
  /-- `too_short()` -/
  | tooShort
  /-- the guard of `w_long` -/
  | longTooBigToDump
  /-- `long_toobig(size)` -/
  | longTooBig (size : ℤ)
  /-- the depth guard of `w_object` -/
  | exceedDepthLimit
  /-- the `LONG_MAX < slen` guard of the `T_BIGNUM` case of `w_object` -/
  | tooBigBignum
  /-- `rb_str_new` with a negative length, called from `r_bytes0` -/
  | negativeStringSize
  /-- the version check of `Marshal.load` -/
  | incompatibleFormat (major minor : UInt8)
  /-- the `default` case of `r_object0`: a byte that is no type -/
  | dumpFormatError (type : UInt8)
  deriving DecidableEq, Repr

/-- The two classes of exception raised here. -/
inductive ErrorClass where
  | argumentError
  | typeError
  deriving DecidableEq, Repr

/-- The class that each `rb_raise` names. -/
def MarshalError.errorClass : MarshalError → ErrorClass
  | .tooShort | .exceedDepthLimit | .negativeStringSize | .dumpFormatError _ => .argumentError
  | .longTooBigToDump | .longTooBig _ | .tooBigBignum | .incompatibleFormat _ _ => .typeError

/-- `%x`: lowercase hexadecimal, without leading zeros. -/
def hexString (n : ℕ) : String := String.ofList (Nat.toDigits 16 n)

/-- The message of each `rb_raise`, with `SIZEOF_LONG`, `MARSHAL_MAJOR` and `MARSHAL_MINOR`
filled in. -/
def MarshalError.message : MarshalError → String
  | .tooShort => "marshal data too short"
  | .longTooBigToDump => "long too big to dump"
  | .longTooBig size => "long too big for this architecture (size 8, given " ++ toString size ++ ")"
  | .exceedDepthLimit => "exceed depth limit"
  | .tooBigBignum => "too big Bignum can\x27t be dumped"
  | .negativeStringSize => "negative string size (or size too big)"
  | .incompatibleFormat major minor =>
    "incompatible marshal file format (can\x27t be read)\n\tformat version 4.8 required; " ++
      toString major.toNat ++ "." ++ toString minor.toNat ++ " given"
  | .dumpFormatError type => "dump format error(0x" ++ hexString type.toNat ++ ")"

example : (MarshalError.dumpFormatError 0xab).message = "dump format error(0xab)" := by decide

/-! ## Writing -/

/-- `(char)x`: the low byte of a `long`. -/
def toChar (x : Long) : UInt8 := UInt8.ofBitVec (x.setWidth 8)

/-- The loop of `w_long` from round `i`, with `fuel` of the bound `i < sizeof(long) + 1` left:
`buf[i] = (char)(x & 0xff); x = RSHIFT(x, 8);`, and a break with `buf[0] = i` when `x` is `0`,
with `buf[0] = -i` when it is `-1`. The bytes `buf[i ..]` and `buf[0]`; `none` if the loop
runs out without a break. -/
def wLongLoop : (fuel i : ℕ) → Long → Option (List UInt8 × UInt8)
  | 0, _, _ => none
  | fuel + 1, i, x =>
    let b := toChar (x &&& 0xff)
    let x := x.sshiftRight 8
    if x = 0 then some ([b], toChar (BitVec.ofNat 64 i))
    else if x = -1 then some ([b], toChar (-BitVec.ofNat 64 i))
    else (wLongLoop fuel (i + 1) x).map fun r => (b :: r.1, r.2)

section Loop

variable {fuel i : ℕ} {x : Long} {bs : List UInt8} {h : UInt8}

theorem toNat_toChar (x : Long) : (toChar x).toNat = x.toNat % 2 ^ 8 := by
  rw [toChar, UInt8.toNat_ofBitVec, BitVec.toNat_setWidth]

/-- The byte `w_long` writes is the signed value modulo `256`. -/
theorem toNat_toChar_and_255 (x : Long) : ((toChar (x &&& 0xff)).toNat : ℤ) = x.toInt % 2 ^ 8 := by
  rw [toNat_toChar, toNat_and_255 x (by norm_num), Nat.mod_mod, Int.natCast_mod, Nat.cast_pow,
    Nat.cast_ofNat, toNat_emod_eq_toInt_emod x (by norm_num)]

/-- The signed value of a `long` in `[-128, 128)` survives `(signed char)(char)x`. -/
theorem toInt_toChar (h1 : -2 ^ 7 ≤ x.toInt) (h2 : x.toInt < 2 ^ 7) :
    (toChar x).toBitVec.toInt = x.toInt := by
  rw [toChar, toInt_setWidth_eq_bmod x (by norm_num)]
  exact Int.bmod_eq_of_le (by simpa using h1) (by simpa using h2)

/-- **What the loop writes.** The bytes are the low bytes of `x`, and the value they stand for,
with ones above them when the count byte is negative, is `x`; the count is the last round. -/
theorem wLongLoop_spec : ∀ {fuel i : ℕ} {x : Long} {bs : List UInt8} {h : UInt8},
    wLongLoop fuel i x = some (bs, h) → bs ≠ [] ∧
      ((x.toInt = bytesVal bs ∧ h = toChar (BitVec.ofNat 64 (i + bs.length - 1))) ∨
        (x.toInt = bytesVal bs - 2 ^ (8 * bs.length) ∧
          h = toChar (-BitVec.ofNat 64 (i + bs.length - 1))))
  | 0, _, _, _, _, hw => by cases hw
  | fuel + 1, i, x, bs, h, hw => by
    -- one round: `x` is the next value times `256` plus the byte written
    have hb := toNat_toChar_and_255 x
    have hdiv : (x.sshiftRight 8).toInt = x.toInt / 2 ^ 8 := toInt_sshiftRight_eq_div x 8
    have hsplit : x.toInt = 2 ^ 8 * (x.sshiftRight 8).toInt + (toChar (x &&& 0xff)).toNat := by
      rw [hdiv, hb]
      omega
    dsimp only [wLongLoop] at hw
    split_ifs at hw with h0 h1
    · -- the rest is `0`: one byte, a positive count
      obtain ⟨rfl, rfl⟩ := Prod.mk.inj (Option.some.inj hw)
      rw [h0, show (0 : Long).toInt = 0 from rfl] at hsplit
      refine ⟨List.cons_ne_nil _ _, .inl ⟨?_, rfl⟩⟩
      simp [hsplit]
    · -- the rest is `-1`: one byte, a negative count
      obtain ⟨rfl, rfl⟩ := Prod.mk.inj (Option.some.inj hw)
      rw [h1, show (-1 : Long).toInt = -1 from rfl] at hsplit
      refine ⟨List.cons_ne_nil _ _, .inr ⟨?_, rfl⟩⟩
      simp only [bytesVal_cons, bytesVal_nil, List.length_singleton]
      omega
    · obtain ⟨⟨bs', h'⟩, hrest, hr⟩ := Option.map_eq_some_iff.mp hw
      obtain ⟨rfl, rfl⟩ := Prod.mk.inj hr
      obtain ⟨-, hcase⟩ := wLongLoop_spec hrest
      have hlen : i + 1 + bs'.length - 1 = i + (toChar (x &&& 0xff) :: bs').length - 1 := by
        simp only [List.length_cons]
        omega
      refine ⟨List.cons_ne_nil _ _, ?_⟩
      dsimp only
      rw [bytesVal_cons, ← hlen, List.length_cons]
      rcases hcase with ⟨hv, rfl⟩ | ⟨hv, rfl⟩
      · exact .inl ⟨by rw [hsplit, hv]; push_cast; ring, rfl⟩
      · refine .inr ⟨?_, rfl⟩
        rw [hsplit, hv, Nat.mul_succ, pow_add]
        push_cast
        ring

/-- **The loop stops in time.** A value of at least `-2 ^ (8 * m)` and below `2 ^ (8 * m)`
is written in at most `m` rounds, and so within any fuel `k` of at least `m`. -/
theorem wLongLoop_length_le : ∀ {k m i : ℕ} {x : Long}, 1 ≤ m → m ≤ k →
    -2 ^ (8 * m) ≤ x.toInt → x.toInt < 2 ^ (8 * m) →
      ∃ bs h, wLongLoop k i x = some (bs, h) ∧ bs.length ≤ m
  | 0, _, _, _, hm, hf, _, _ => absurd (hm.trans hf) (by omega)
  | k + 1, m, i, x, hm, hf, hlo, hhi => by
    have hdiv : (x.sshiftRight 8).toInt = x.toInt / 2 ^ 8 := toInt_sshiftRight_eq_div x 8
    dsimp only [wLongLoop]
    split_ifs with h0 h1
    · exact ⟨_, _, rfl, by simpa using hm⟩
    · exact ⟨_, _, rfl, by simpa using hm⟩
    · -- neither `0` nor `-1` is left, so the value needs another round, and `m ≥ 2`
      have hne0 : (x.sshiftRight 8).toInt ≠ 0 := fun h => h0 (BitVec.toInt_inj.mp h)
      have hne1 : (x.sshiftRight 8).toInt ≠ -1 := fun h => h1 (BitVec.toInt_inj.mp h)
      obtain ⟨m', rfl⟩ : ∃ m', m = m' + 1 := ⟨m - 1, by omega⟩
      have hm' : 1 ≤ m' := by
        rcases Nat.eq_zero_or_pos m' with rfl | hpos
        · -- a value in `[-256, 256)` leaves `0` or `-1` after one round
          norm_num at hlo hhi
          rw [hdiv] at hne0 hne1
          omega
        · exact hpos
      have hpow : (2 : ℤ) ^ (8 * (m' + 1)) = 2 ^ (8 * m') * 2 ^ 8 := by rw [Nat.mul_succ, pow_add]
      have hlo' : -2 ^ (8 * m') ≤ (x.sshiftRight 8).toInt := by
        rw [hdiv, Int.le_ediv_iff_mul_le (by norm_num)]
        linarith
      have hhi' : (x.sshiftRight 8).toInt < 2 ^ (8 * m') := by
        rw [hdiv, Int.ediv_lt_iff_lt_mul (by norm_num)]
        linarith
      obtain ⟨bs, h, hw, hlen⟩ :=
        wLongLoop_length_le (k := k) (i := i + 1) hm' (by omega) hlo' hhi'
      exact ⟨_, _, by rw [hw]; rfl, by simpa using hlen⟩

/-- The loop of `w_long` always breaks: eight shifts by `8` leave `0` or `-1` of any word. -/
theorem wLongLoop_isSome (x : Long) : (wLongLoop 8 1 x).isSome := by
  have hlo := BitVec.le_toInt x
  have hhi := BitVec.toInt_lt (x := x)
  obtain ⟨bs, h, hw, -⟩ := wLongLoop_length_le (i := 1) (m := 8) (x := x) (by norm_num) le_rfl
    (by norm_num at hlo ⊢; omega) (by norm_num at hhi ⊢; omega)
  rw [hw]
  rfl

end Loop

/-- `w_long(x, arg)`: the bytes it writes. -/
def wLong (x : Long) : Except MarshalError (List UInt8) :=
  if ¬(x.sshiftRight 31 = 0 ∨ x.sshiftRight 31 = -1) then .error .longTooBigToDump
  else if x = 0 then .ok [0]
  else if 0 < x.toInt ∧ x.toInt < 123 then .ok [toChar (x + 5)]
  else if -124 < x.toInt ∧ x.toInt < 0 then .ok [toChar ((x - 5) &&& 0xff)]
  else
    -- `w_nbyte(buf, i+1, arg)`: the loop has broken (`wLongLoop_isSome`)
    let r := (wLongLoop 8 1 x).get (wLongLoop_isSome x)
    .ok (r.2 :: r.1)

example : wLong 300 = .ok [2, 44, 1] := by decide
example : wLong (-300) = .ok [254, 212, 254] := by decide

/-- The guard of `w_long`: `RSHIFT(x, 31)` is `0` or `-1` exactly on the 32-bit values. -/
theorem wLong_guard_iff (x : Long) :
    (x.sshiftRight 31 = 0 ∨ x.sshiftRight 31 = -1) ↔ -2 ^ 31 ≤ x.toInt ∧ x.toInt < 2 ^ 31 := by
  have hdiv : (x.sshiftRight 31).toInt = x.toInt / 2 ^ 31 := toInt_sshiftRight_eq_div x 31
  rw [← BitVec.toInt_inj, ← BitVec.toInt_inj, hdiv, show (0 : Long).toInt = 0 from rfl,
    show (-1 : Long).toInt = -1 from rfl]
  omega

/-! ## Reading -/

/-- `r_byte(arg)` on a String source: the byte at `arg->offset`, or `too_short()` at the end. -/
def rByte : List UInt8 → Except MarshalError (UInt8 × List UInt8)
  | [] => .error .tooShort
  | b :: s => .ok (b, s)

/-- A loop of `r_long` from round `i`, with `k` rounds left: each round reads a byte `b` and
sets `x` to `step i x b`. -/
def rLongLoop (step : ℕ → Long → UInt8 → Long) :
    (k i : ℕ) → Long → List UInt8 → Except MarshalError (Long × List UInt8)
  | 0, _, x, s => .ok (x, s)
  | k + 1, i, x, s => do
    let (b, s) ← rByte s
    rLongLoop step k (i + 1) (step i x b) s

/-- `x |= (long)r_byte(arg) << (8*i);` -/
def orByte (i : ℕ) (x : Long) (b : UInt8) : Long := x ||| BitVec.ofNat 64 b.toNat <<< (8 * i)

/-- `x &= ~((long)0xff << (8*i)); x |= (long)r_byte(arg) << (8*i);` -/
def setByte (i : ℕ) (x : Long) (b : UInt8) : Long :=
  x &&& ~~~((0xff : Long) <<< (8 * i)) ||| BitVec.ofNat 64 b.toNat <<< (8 * i)

/-- `r_long` once its first byte, read as a signed char, is `c`. -/
def rLongCount (c : ℤ) (s : List UInt8) : Except MarshalError (Long × List UInt8) :=
  if c = 0 then .ok (0, s)
  else if 0 < c then
    if 4 < c ∧ c < 128 then .ok (BitVec.ofInt 64 (c - 5), s)
    else if 8 < c then .error (.longTooBig c)
    else rLongLoop orByte c.toNat 0 0 s
  else if -129 < c ∧ c < -4 then .ok (BitVec.ofInt 64 (c + 5), s)
  else if 8 < -c then .error (.longTooBig (-c))
  else rLongLoop setByte (-c).toNat 0 (-1) s

/-- `r_long(arg)`: `int c = (signed char)r_byte(arg);`, then the value it announces. -/
def rLong (s : List UInt8) : Except MarshalError (Long × List UInt8) := do
  let (b, s) ← rByte s
  rLongCount b.toBitVec.toInt s

example : rLong [2, 44, 1, 9] = .ok (300, [9]) := by decide

section Read

variable {step : ℕ → Long → UInt8 → Long}

theorem rLongLoop_succ_cons (k i : ℕ) (x : Long) (b : UInt8) (s : List UInt8) :
    rLongLoop step (k + 1) i x (b :: s) = rLongLoop step k (i + 1) (step i x b) s := rfl

/-- A loop of `r_long` raises nothing but `too_short()`. -/
theorem rLongLoop_error {k i : ℕ} {x : Long} {s : List UInt8} {e : MarshalError}
    (h : rLongLoop step k i x s = .error e) : e = .tooShort := by
  induction k generalizing i x s with
  | zero => cases h
  | succ k ih =>
    cases s with
    | nil => cases h; rfl
    | cons b s => exact ih h

/-- **Reading the bytes of a positive value**: each is OR-ed into the lane above the last. -/
theorem rLongLoop_orByte : ∀ (bs : List UInt8) {i : ℕ} {x : Long} (rest : List UInt8),
    x.toNat < 2 ^ (8 * i) → 8 * (i + bs.length) ≤ 64 →
      rLongLoop orByte bs.length i x (bs ++ rest) =
        .ok (BitVec.ofNat 64 (x.toNat + bytesVal bs * 2 ^ (8 * i)), rest)
  | [], _, x, _, _, _ => by simp [rLongLoop]
  | b :: bs, i, x, rest, hx, hlen => by
    have hstep : (orByte i x b).toNat = x.toNat + b.toNat * 2 ^ (8 * i) :=
      toNat_or_shiftLeft x hx b.toNat_lt (by simp at hlen; omega)
    have hnext : (orByte i x b).toNat < 2 ^ (8 * (i + 1)) := by
      have hb : b.toNat * 2 ^ (8 * i) ≤ 255 * 2 ^ (8 * i) :=
        Nat.mul_le_mul_right _ (by have := b.toNat_lt; omega)
      rw [hstep, Nat.mul_succ, pow_add, show (2 : ℕ) ^ 8 = 256 from rfl]
      omega
    rw [List.length_cons, List.cons_append, rLongLoop_succ_cons,
      rLongLoop_orByte bs rest hnext (by simp at hlen; omega), hstep, bytesVal_cons,
      Nat.mul_succ, pow_add]
    congr 3
    ring

/-- **Reading the bytes of a negative value**: each replaces the lowest lane of the ones. -/
theorem rLongLoop_setByte : ∀ (bs : List UInt8) {i l : ℕ} {x : Long} (rest : List UInt8),
    x.toNat = 2 ^ 64 - 2 ^ (8 * i) + l → l < 2 ^ (8 * i) → 8 * (i + bs.length) ≤ 64 →
      rLongLoop setByte bs.length i x (bs ++ rest) =
        .ok (BitVec.ofNat 64 (2 ^ 64 - 2 ^ (8 * (i + bs.length)) + (l + bytesVal bs * 2 ^ (8 * i))),
          rest)
  | [], i, l, x, rest, hx, _, _ => by
    rw [List.nil_append, List.length_nil, Nat.add_zero, bytesVal_nil, Nat.zero_mul, Nat.add_zero,
      ← hx, BitVec.ofNat_toNat, BitVec.setWidth_eq]
    rfl
  | b :: bs, i, l, x, rest, hx, hl, hlen => by
    have hstep : (setByte i x b).toNat = 2 ^ 64 - 2 ^ (8 * (i + 1)) + (l + b.toNat * 2 ^ (8 * i)) := by
      rw [setByte, toNat_clear_or_shiftLeft x hx hl b.toNat_lt (by simp at hlen; omega)]
      rfl
    have hnext : l + b.toNat * 2 ^ (8 * i) < 2 ^ (8 * (i + 1)) := by
      have hb : b.toNat * 2 ^ (8 * i) ≤ 255 * 2 ^ (8 * i) :=
        Nat.mul_le_mul_right _ (by have := b.toNat_lt; omega)
      rw [Nat.mul_succ, pow_add, show (2 : ℕ) ^ 8 = 256 from rfl]
      omega
    rw [List.length_cons, List.cons_append, rLongLoop_succ_cons,
      rLongLoop_setByte bs rest hstep hnext (by simp at hlen; omega), bytesVal_cons,
      show i + 1 + bs.length = i + (bs.length + 1) by omega, Nat.mul_succ 8 i, pow_add]
    congr 3
    ring

end Read

/-- **`r_long` raises only `marshal data too short`.** A count byte of more than four is a
small value, so `long_toobig` is never called on LP64. -/
theorem rLong_ok_or_tooShort (s : List UInt8) :
    (∃ r, rLong s = .ok r) ∨ rLong s = .error .tooShort := by
  rcases hr : rLong s with e | r
  case ok => exact .inl ⟨r, rfl⟩
  right
  cases s with
  | nil => cases hr; rfl
  | cons b s =>
    have hlo := BitVec.le_toInt b.toBitVec
    have hhi := BitVec.toInt_lt (x := b.toBitVec)
    simp only [Nat.add_one_sub_one] at hlo hhi
    change rLongCount b.toBitVec.toInt s = .error e at hr
    unfold rLongCount at hr
    -- the two `long_toobig` branches need a count byte the signed char cannot hold
    split_ifs at hr with h0 hpos hsmall hbig hsmall' hbig'
    · exact absurd hbig (by omega)
    · rw [rLongLoop_error hr]
    · exact absurd hbig' (by omega)
    · rw [rLongLoop_error hr]

theorem wLong_of_not_range {x : Long} (hg : ¬(-2 ^ 31 ≤ x.toInt ∧ x.toInt < 2 ^ 31)) :
    wLong x = .error .longTooBigToDump := by
  rw [wLong, if_pos (mt (wLong_guard_iff x).mp hg)]

theorem wLong_isOk_of_range {x : Long} (hg : -2 ^ 31 ≤ x.toInt ∧ x.toInt < 2 ^ 31) :
    ∃ bs, wLong x = .ok bs := by
  rw [wLong, if_neg (not_not.mpr ((wLong_guard_iff x).mpr hg))]
  split_ifs <;> exact ⟨_, rfl⟩

/-- The only exception `w_long` raises is its guard's. -/
theorem wLong_eq_error {x : Long} {e : MarshalError} (h : wLong x = .error e) :
    e = .longTooBigToDump := by
  unfold wLong at h
  split_ifs at h
  cases h
  rfl

/-- What `w_long` writes, `r_long` reads back, whatever follows it. -/
theorem rLong_append_of_wLong {x : Long} {bs : List UInt8} (hw : wLong x = .ok bs)
    (rest : List UInt8) : rLong (bs ++ rest) = .ok (x, rest) := by
  have hlo := BitVec.le_toInt x
  have hhi := BitVec.toInt_lt (x := x)
  simp only [show (64 : ℕ) - 1 = 63 from rfl] at hlo hhi
  rw [wLong] at hw
  -- the guard failing is no `.ok`, which `split_ifs` sees
  split_ifs at hw with hguard h0 hpos hneg
  all_goals cases hw
  · -- `0` is the byte `0`
    subst h0
    rfl
  · -- a small positive value is one byte, `x + 5`
    have hc : (toChar (x + 5)).toBitVec.toInt = x.toInt + 5 := by
      have h5 : (x + 5).toInt = x.toInt + 5 := by
        rw [BitVec.toInt_add, show (5 : Long).toInt = 5 from rfl]
        exact Int.bmod_eq_of_le (by omega) (by omega)
      rw [toInt_toChar (by omega) (by omega), h5]
    show rLongCount _ rest = _
    rw [hc, rLongCount, if_neg (by omega), if_pos (by omega), if_pos (by omega),
      Int.add_sub_cancel, BitVec.ofInt_toInt]
  · -- a small negative value is one byte, `x - 5`
    have hc : (toChar ((x - 5) &&& 0xff)).toBitVec.toInt = x.toInt - 5 := by
      have h5 : (x - 5).toInt = x.toInt - 5 := by
        rw [BitVec.toInt_sub, show (5 : Long).toInt = 5 from rfl]
        exact Int.bmod_eq_of_le (by omega) (by omega)
      have hlow : toChar ((x - 5) &&& 0xff) = toChar (x - 5) := by
        apply UInt8.toNat_inj.mp
        rw [toNat_toChar, toNat_toChar, toNat_and_255 _ (by norm_num), Nat.mod_mod]
      rw [hlow, toInt_toChar (by omega) (by omega), h5]
    show rLongCount _ rest = _
    rw [hc, rLongCount, if_neg (by omega), if_neg (by omega), if_pos (by omega),
      Int.sub_add_cancel, BitVec.ofInt_toInt]
  · -- otherwise the loop's bytes, at most four of them, after their count
    have hg := (wLong_guard_iff x).mp hguard
    obtain ⟨bs, h, hw, hlen⟩ := wLongLoop_length_le (k := 8) (i := 1) (m := 4) (x := x)
      (by norm_num) (by norm_num) (by norm_num; omega) (by norm_num; omega)
    obtain ⟨hne, hcase⟩ := wLongLoop_spec hw
    have hbs : 1 ≤ bs.length := List.length_pos_iff.mpr hne
    have hget : (wLongLoop 8 1 x).get (wLongLoop_isSome x) = (bs, h) := by simp [hw]
    simp only [hget]
    show rLongCount _ (bs ++ rest) = _
    rcases hcase with ⟨hv, rfl⟩ | ⟨hv, rfl⟩
    · -- a positive count: the bytes are `x` itself
      have hc : (toChar (BitVec.ofNat 64 (1 + bs.length - 1))).toBitVec.toInt = bs.length := by
        interval_cases hl : bs.length <;> rfl
      rw [hc, rLongCount, if_neg (by omega), if_pos (by omega), if_neg (by omega),
        if_neg (by omega), Int.toNat_natCast,
        rLongLoop_orByte bs rest (by simp) (by omega)]
      congr 2
      apply BitVec.eq_of_toInt_eq
      have hx : bytesVal bs < 2 ^ 32 :=
        lt_of_lt_of_le (bytesVal_lt bs) (Nat.pow_le_pow_right (by norm_num) (by omega))
      rw [show (0 : Long).toNat = 0 from rfl, Nat.zero_add, Nat.mul_zero, pow_zero, Nat.mul_one,
        hv, BitVec.toInt_ofNat', Int.bmod_eq_of_le (by omega) (by omega)]
    · -- a negative count: the bytes are `x` below the ones
      have hc : (toChar (-BitVec.ofNat 64 (1 + bs.length - 1))).toBitVec.toInt = -bs.length := by
        interval_cases hl : bs.length <;> rfl
      have hx := bytesVal_lt bs
      rw [hc, rLongCount, if_neg (by omega), if_neg (by omega), if_neg (by omega),
        if_neg (by omega), neg_neg, Int.toNat_natCast,
        rLongLoop_setByte bs (l := 0) rest (by rfl) (by simp) (by omega)]
      congr 2
      apply BitVec.eq_of_toInt_eq
      have hpow : (2 : ℕ) ^ (8 * bs.length) ≤ 2 ^ 32 :=
        Nat.pow_le_pow_right (by norm_num) (by omega)
      -- the word is `x` plus `2 ^ 64`
      have hword : ((2 ^ 64 - 2 ^ (8 * (0 + bs.length)) + (0 + bytesVal bs * 2 ^ (8 * 0)) : ℕ) : ℤ) =
          x.toInt + ((2 ^ 64 : ℕ) : ℤ) := by
        rw [Nat.zero_add, Nat.zero_add, Nat.mul_zero, pow_zero, Nat.mul_one, Nat.cast_add,
          Nat.cast_sub (le_trans hpow (by norm_num)), hv]
        push_cast
        ring
      rw [BitVec.toInt_ofNat', hword, Int.add_bmod_right]
      push_cast at hpow
      exact Int.bmod_eq_of_le (by omega) (by omega)


/-- **`r_long` reads back what `w_long` writes**, for every `long`, followed by any bytes; a
`long` outside 32 bits is not written. -/
theorem rLong_wLong (x : Long) (rest : List UInt8) :
    (wLong x).bind (fun bs => rLong (bs ++ rest)) =
      if -2 ^ 31 ≤ x.toInt ∧ x.toInt < 2 ^ 31 then .ok (x, rest)
      else .error .longTooBigToDump := by
  by_cases hg : -2 ^ 31 ≤ x.toInt ∧ x.toInt < 2 ^ 31
  · obtain ⟨bs, hw⟩ := wLong_isOk_of_range hg
    rw [if_pos hg, hw]
    exact rLong_append_of_wLong hw rest
  · rw [if_neg hg, wLong_of_not_range hg]
    rfl

end CRuby.Marshal
