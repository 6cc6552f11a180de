import CRuby.Marshal.Long
import Mathlib.Data.Nat.Digits.Lemmas

/-!
# Dumping and loading an `Integer` (marshal.c)

`Marshal.dump` writes the version `4.8` and then the object with `w_object`. `Marshal.load`
checks the version and reads the object back with `r_object0`. For an `Integer`:

* a Fixnum whose tagged word passes `w_long`'s 32-bit test, that is a value in
  `[-2 ^ 30, 2 ^ 30)`, is written as `'i'` and its `w_long`. Any other Fixnum is passed back to
  `w_object` as a Bignum made by `rb_int2big`, and that call takes a level of the depth limit;
* a Bignum is written as `'l'`, a sign byte, its length in 16-bit shorts as a long, and the
  shorts, least significant first;
* `'i'` is read back with `r_long` and tagged. `'l'` is read back with `rb_integer_unpack`,
  which makes the canonical `Integer` of the number.

The link table of `w_object` and `r_object0` is not modelled: an `Integer` dumped on its own
is never found in it (a Fixnum is never entered, and the Bignum that `rb_int2big` makes is new).
After a type byte of another kind of object, the model stops (`Loaded.other`).

* A dump raises `exceed depth limit` exactly when the limit is not negative and below the
  levels the dump takes (`marshalDump_exceed_iff`). So a limit of `1` refuses a Fixnum outside
  `[-2 ^ 30, 2 ^ 30)` but not a Bignum.
* Every canonical `Integer` comes back from its dump, whatever follows the dump, when the
  limit allows it and the Bignum has fewer than `2 ^ 31` shorts (`marshalLoad_marshalDump`).
-/

namespace CRuby.Marshal

open CRuby.Num WordBytes

/-- `MARSHAL_MAJOR` -/
def marshalMajor : UInt8 := 4

/-- `MARSHAL_MINOR` -/
def marshalMinor : UInt8 := 8

/-- `TYPE_FIXNUM` -/
def typeFixnum : UInt8 := 'i'.toUInt8

/-- `TYPE_BIGNUM` -/
def typeBignum : UInt8 := 'l'.toUInt8

/-- The `TYPE_` bytes of marshal.c, each a case of `r_object0`. -/
def objectTypes : List UInt8 :=
  ['0', 'T', 'F', 'i', 'e', 'C', 'o', 'd', 'u', 'U', 'f', 'l', '"', '/', '[', '{', '}', 'S',
    'M', 'c', 'm', ':', ';', 'I', '@'].map Char.toUInt8

/-! ## Dumping -/

/-- `BIGNUM_DIGITS(obj)`, `BIGNUM_LEN(obj)` of them: the 32-bit digits of `|n|`, least
significant first. A Bignum is kept trimmed, so the top digit is not zero. -/
def bignumDigits (n : ℤ) : List ℕ := Nat.digits (2 ^ 32) n.natAbs

/-- The loop of `shortlen`, `while (num) { num = SHORTDN(num); offset++; }`, with `fuel`
rounds. -/
def shortlenLoop : (fuel num offset : ℕ) → ℕ
  | 0, _, offset => offset
  | fuel + 1, num, offset => if num = 0 then offset else shortlenLoop fuel (num >>> 16) (offset + 1)

/-- `shortlen(len, ds)`: the shorts of a Bignum, two for each digit below the top one and
those of the top one. Each round of the loop drops sixteen of a digit's 32 bits, so a fuel of
`BITSPERDIG` is never used up. -/
def shortlen (ds : List ℕ) : ℕ :=
  (ds.length - 1) * 4 / 2 + shortlenLoop 32 (ds.getLastD 0) 0

/-- `w_short(x, arg)`: the low byte of `x`, then the next. -/
def wShort (x : ℕ) : List UInt8 :=
  [UInt8.ofNat ((x >>> 0) &&& 0xff), UInt8.ofNat ((x >>> 8) &&& 0xff)]

/-- The `for` loop over one digit in the `T_BIGNUM` case of `w_object`, from the round with
`rounds` of `SIZEOF_BDIGIT / SIZEOF_SHORT` left:
`w_short(num & SHORTMASK); num = SHORTDN(num); if (len == 0 && num == 0) break;`.
`last` is `len == 0`: the digit is the top one. -/
def wDigitShorts (last : Bool) : (rounds num : ℕ) → List UInt8
  | 0, _ => []
  | rounds + 1, num =>
    wShort (num &&& 0xffff) ++
      if last ∧ num >>> 16 = 0 then [] else wDigitShorts last rounds (num >>> 16)

/-- The `while (len--)` loop of the `T_BIGNUM` case over the digits. -/
def wBignumDigits : List ℕ → List UInt8
  | [] => []
  | d :: ds => wDigitShorts ds.isEmpty 2 d ++ wBignumDigits ds

/-- The entry of `w_object(obj, arg, limit)`: `exceed depth limit` at a limit of `0`, and
otherwise one level less for what the object holds, a negative limit being none. -/
def wObjectLimit (limit : ℤ) : Except MarshalError ℤ :=
  if limit = 0 then .error .exceedDepthLimit
  else .ok (if 0 < limit then limit - 1 else limit)

/-- `w_object(obj, arg, limit)` on a Bignum that holds `n`: the `T_BIGNUM` case. -/
def wObjectBignum (limit n : ℤ) : Except MarshalError (List UInt8) := do
  let _ ← wObjectLimit limit
  let ds := bignumDigits n
  let slen := shortlen ds
  if longMax < slen then .error .tooBigBignum
  else do
    let len ← wLong (BitVec.ofNat 64 slen)
    -- `BIGNUM_SIGN(obj) ? '+' : '-'`
    let sign := if 0 ≤ n then '+'.toUInt8 else '-'.toUInt8
    pure (typeBignum :: sign :: len ++ wBignumDigits ds)

/-- `w_object(obj, arg, limit)` on an `Integer`. -/
def wObjectInteger (limit : ℤ) : RInteger → Except MarshalError (List UInt8)
  | .fixnum v => do
    let limit ← wObjectLimit limit
    -- `RSHIFT((long)obj, 31)`, on the tagged word
    if v.sshiftRight 31 = 0 ∨ v.sshiftRight 31 = -1 then do
      let bs ← wLong (fix2long v)
      pure (typeFixnum :: bs)
    else
      -- `w_object(rb_int2big(FIX2LONG(obj)), arg, limit)`
      wObjectBignum limit (rbInt2big (fix2long v)).val
  | .bignum n => wObjectBignum limit n

/-- `Marshal.dump(obj, limit)` into a String: the version, then the object. -/
def marshalDump (limit : ℤ) (obj : RInteger) : Except MarshalError (List UInt8) := do
  let bs ← wObjectInteger limit obj
  pure (marshalMajor :: marshalMinor :: bs)

example : marshalDump (-1) (.fixnum (long2fix 300)) = .ok [4, 8, 105, 2, 44, 1] := by decide

/-! ## Loading -/

/-- What `r_object0` returns, as far as it is modelled: an `Integer`, or the type byte of
another kind of object, which the model does not read. -/
inductive Loaded where
  | integer (r : RInteger)
  | other (type : UInt8)
  deriving DecidableEq, Repr

/-- `r_bytes0(len, arg)` on a String source. -/
def rBytes0 (len : Long) (s : List UInt8) : Except MarshalError (List UInt8 × List UInt8) :=
  if len = 0 then .ok ([], s)
  else if len.toInt ≤ s.length then
    -- `rb_str_new` refuses a negative length
    if len.toInt < 0 then .error .negativeStringSize
    else .ok (s.take len.toNat, s.drop len.toNat)
  else .error .tooShort

/-- `rb_integer_unpack(words, numwords, 2, 0, INTEGER_PACK_LITTLE_ENDIAN | neg)` on a
little-endian LP64 host, `neg` being `INTEGER_PACK_NEGATIVE` or nothing. `bary_unpack_internal`
copies the `2 * numwords` bytes into the digits and pads them with zeros (its `MEMCPY` path,
or for one word its 16-bit path, which reads the same number), so the magnitude is the bytes
read little-endian; the result is the canonical `Integer` of the signed number, as
`bignorm` and the `fixbuf` path both make it. -/
def rbIntegerUnpackShorts (words : List UInt8) (numwords : ℕ) (negative : Bool) : RInteger :=
  let u : ℤ := bytesVal (words.take (2 * numwords))
  bignorm (.bignum (if negative then -u else u))

/-- The `TYPE_BIGNUM` case of `r_object0`. -/
def rBignum (s : List UInt8) : Except MarshalError (RInteger × List UInt8) := do
  let (sign, s) ← rByte s
  let (len, s) ← rLong s
  let (data, s) ← rBytes0 (len * 2) s
  pure (rbIntegerUnpackShorts data len.toNat (sign = '-'.toUInt8), s)

/-- `r_object0(arg, ivp, extmod)`: the type byte, then an `Integer` after `TYPE_FIXNUM` and
`TYPE_BIGNUM`, and `dump format error` after a byte that is no type. -/
def rObject0 (s : List UInt8) : Except MarshalError (Loaded × List UInt8) := do
  let (type, s) ← rByte s
  if type = typeFixnum then do
    let (i, s) ← rLong s
    pure (.integer (.fixnum (long2fix i)), s)
  else if type = typeBignum then do
    let (r, s) ← rBignum s
    pure (.integer r, s)
  else if type ∈ objectTypes then pure (.other type, s)
  else .error (.dumpFormatError type)

/-- `Marshal.load(source)` from a String: the version check, then the object. Bytes after the
object are not looked at. -/
def marshalLoad (s : List UInt8) : Except MarshalError Loaded := do
  let (major, s) ← rByte s
  let (minor, s) ← rByte s
  if major ≠ marshalMajor ∨ minor > marshalMinor then .error (.incompatibleFormat major minor)
  else do
    let (v, _) ← rObject0 s
    pure v

example : marshalLoad [4, 8, 105, 2, 44, 1] = .ok (.integer (.fixnum (long2fix 300))) := by decide

/-! ## The shorts of a Bignum -/

section Shorts

/-- `w_short` writes a value below `2 ^ 16` as two bytes. -/
theorem wShort_spec {x : ℕ} (hx : x < 2 ^ 16) : (wShort x).length = 2 ∧ bytesVal (wShort x) = x := by
  refine ⟨rfl, ?_⟩
  have hlo : (x >>> 0) &&& 0xff = x % 256 := by
    rw [Nat.shiftRight_zero, show (0xff : ℕ) = 2 ^ 8 - 1 from rfl, Nat.and_two_pow_sub_one_eq_mod]
  have hhi : (x >>> 8) &&& 0xff = x / 256 % 256 := by
    rw [Nat.shiftRight_eq_div_pow, show (0xff : ℕ) = 2 ^ 8 - 1 from rfl,
      Nat.and_two_pow_sub_one_eq_mod]
  rw [wShort, bytesVal_cons, bytesVal_cons, bytesVal_nil, hlo, hhi, UInt8.toNat_ofNat',
    UInt8.toNat_ofNat']
  simp only [show (2 : ℕ) ^ 8 = 256 from rfl, Nat.mod_mod] at hx ⊢
  omega

/-- The two rounds over a digit: its low short, then its high short unless it is the top digit
and below `2 ^ 16`. -/
theorem wDigitShorts_two (last : Bool) {d : ℕ} (hd : d < 2 ^ 32) :
    wDigitShorts last 2 d =
      wShort (d % 2 ^ 16) ++ if last = true ∧ d < 2 ^ 16 then [] else wShort (d / 2 ^ 16) := by
  have hmask : ∀ m : ℕ, m &&& 0xffff = m % 2 ^ 16 := fun m => by
    rw [show (0xffff : ℕ) = 2 ^ 16 - 1 from rfl, Nat.and_two_pow_sub_one_eq_mod]
  have hhigh : d / 2 ^ 16 % 2 ^ 16 = d / 2 ^ 16 := Nat.mod_eq_of_lt (Nat.div_lt_of_lt_mul (by omega))
  have hz : d / 2 ^ 16 = 0 ↔ d < 2 ^ 16 := by
    rw [Nat.div_eq_zero_iff]
    omega
  simp only [wDigitShorts, hmask, hz, ite_self, List.append_nil, Nat.shiftRight_eq_div_pow d 16,
    hhigh]

/-- The shorts of one digit: four bytes, or two for a top digit below `2 ^ 16`. -/
theorem wDigitShorts_spec (last : Bool) {d : ℕ} (hd : d < 2 ^ 32) :
    (wDigitShorts last 2 d).length = 2 * (if last = true ∧ d < 2 ^ 16 then 1 else 2) ∧
      bytesVal (wDigitShorts last 2 d) = d := by
  have hlo := wShort_spec (Nat.mod_lt d (Nat.two_pow_pos 16))
  rw [wDigitShorts_two last hd]
  by_cases htop : last = true ∧ d < 2 ^ 16
  · -- a top digit below `2 ^ 16`: one short
    rw [if_pos htop, if_pos htop, List.append_nil]
    exact ⟨hlo.1, by rw [hlo.2, Nat.mod_eq_of_lt htop.2]⟩
  · -- otherwise two, the low one first
    have hhi := wShort_spec (Nat.div_lt_of_lt_mul (by omega : d < 2 ^ 16 * 2 ^ 16))
    rw [if_neg htop, if_neg htop, List.length_append, hlo.1, hhi.1, bytesVal_append, hlo.2, hhi.2,
      hlo.1]
    omega

/-- `shortlen`'s loop counts the shorts of a digit that is not zero. -/
theorem shortlenLoop_eq {d : ℕ} (h0 : d ≠ 0) (hd : d < 2 ^ 32) :
    shortlenLoop 32 d 0 = if d < 2 ^ 16 then 1 else 2 := by
  rw [shortlenLoop, if_neg h0, shortlenLoop, Nat.shiftRight_eq_div_pow d 16]
  by_cases hlt : d < 2 ^ 16
  · rw [if_pos (Nat.div_eq_of_lt hlt), if_pos hlt]
  · -- two rounds: the second shift leaves nothing
    have hz : d / 2 ^ 16 ≠ 0 := by
      rw [Ne, Nat.div_eq_zero_iff]
      omega
    have hz2 : (d / 2 ^ 16) >>> 16 = 0 := by
      rw [Nat.shiftRight_eq_div_pow, Nat.div_div_eq_div_mul]
      exact Nat.div_eq_of_lt (by omega)
    rw [if_neg hz, if_neg hlt, shortlenLoop, if_pos hz2]

/-- The digits of a Bignum, as `BIGNUM_DIGITS` holds them: each below `2 ^ 32`, the top one not
zero. -/
structure Trimmed (ds : List ℕ) : Prop where
  lt : ∀ d ∈ ds, d < 2 ^ 32
  top : ∀ h : ds ≠ [], ds.getLast h ≠ 0

theorem trimmed_bignumDigits (n : ℤ) : Trimmed (bignumDigits n) where
  lt _ hd := Nat.digits_lt_base (by norm_num) hd
  top h := Nat.getLast_digit_ne_zero _ fun h0 => h (by rw [bignumDigits, h0, Nat.digits_zero])

theorem Trimmed.tail {d : ℕ} {ds : List ℕ} (h : Trimmed (d :: ds)) : Trimmed ds where
  lt e he := h.lt e (List.mem_cons_of_mem d he)
  top hne := by
    have := h.top (List.cons_ne_nil d ds)
    rwa [List.getLast_cons hne] at this

/-- Two shorts at most for each digit. -/
theorem shortlen_le {ds : List ℕ} (ht : Trimmed ds) : shortlen ds ≤ 2 * ds.length := by
  by_cases hne : ds = []
  · subst hne
    rfl
  · have hlast : ds.getLastD 0 = ds.getLast hne := by
      rw [List.getLastD_eq_getLast?, List.getLast?_eq_some_getLast hne]
      rfl
    have hlen : 1 ≤ ds.length := List.length_pos_iff.mpr hne
    rw [shortlen, hlast, shortlenLoop_eq (ht.top hne) (ht.lt _ (List.getLast_mem hne))]
    split_ifs <;> omega

/-- **The shorts of a Bignum**: `2 * shortlen` bytes, which read little-endian are the
number the digits stand for. -/
theorem wBignumDigits_spec : ∀ {ds : List ℕ}, Trimmed ds →
    (wBignumDigits ds).length = 2 * shortlen ds ∧
      bytesVal (wBignumDigits ds) = Nat.ofDigits (2 ^ 32) ds
  | [], _ => ⟨rfl, rfl⟩
  | [d], ht => by
    have hd := ht.lt d List.mem_cons_self
    have h0 : d ≠ 0 := ht.top (List.cons_ne_nil d [])
    obtain ⟨hlen, hval⟩ := wDigitShorts_spec true hd
    have hone : wBignumDigits [d] = wDigitShorts true 2 d := List.append_nil _
    have hshort : shortlen [d] = shortlenLoop 32 d 0 := by
      rw [shortlen, List.length_singleton, Nat.sub_self, Nat.zero_mul, Nat.zero_div, Nat.zero_add]
      rfl
    rw [hone, hshort, shortlenLoop_eq h0 hd, Nat.ofDigits_singleton, hlen]
    exact ⟨by simp only [true_and], hval⟩
  | d :: e :: ds, ht => by
    have hd := ht.lt d List.mem_cons_self
    obtain ⟨hlen, hval⟩ := wDigitShorts_spec false hd
    obtain ⟨ihlen, ihval⟩ := wBignumDigits_spec ht.tail
    -- a digit below the top one is four bytes, two shorts
    have hshort : shortlen (d :: e :: ds) = 2 + shortlen (e :: ds) := by
      simp only [shortlen, List.length_cons, List.getLastD_cons]
      omega
    have hcons : wBignumDigits (d :: e :: ds) = wDigitShorts false 2 d ++ wBignumDigits (e :: ds) :=
      rfl
    simp only [Bool.false_eq_true, false_and, if_false] at hlen
    rw [hcons, List.length_append, hlen, ihlen, hshort, bytesVal_append, hval, hlen, ihval,
      Nat.ofDigits_cons]
    exact ⟨by omega, rfl⟩

end Shorts

/-! ## Round trips -/

section RoundTrip

variable {limit : ℤ} {n : ℤ}

theorem wObjectLimit_of_ne (h : limit ≠ 0) :
    wObjectLimit limit = .ok (if 0 < limit then limit - 1 else limit) := by
  rw [wObjectLimit, if_neg h]

/-- `r_bytes0` takes exactly `len` bytes when there are that many. -/
theorem rBytes0_append {len : Long} {data : List UInt8} (hlen : len.toInt = data.length)
    (rest : List UInt8) : rBytes0 len (data ++ rest) = .ok (data, rest) := by
  have hnat : len.toNat = data.length := by
    have hcond := BitVec.toInt_eq_toNat_cond len
    have hlt := len.isLt
    split_ifs at hcond <;> omega
  unfold rBytes0
  split_ifs with h0 hle hneg
  · subst h0
    have : data = [] := List.eq_nil_of_length_eq_zero (by simpa using hlen.symm)
    subst this
    rfl
  · omega
  · rw [hnat, List.take_left, List.drop_left]
  · exact absurd (by rw [List.length_append]; omega) hle

/-- **A Bignum dumps and loads back.** A Bignum holding `n`, not zero and with fewer than
`2 ^ 31` shorts, is written at any limit but `0`, and `r_object0` reads back the canonical
`Integer` of `n`. -/
theorem wObjectBignum_load (hl : limit ≠ 0) (hn : n ≠ 0)
    (hsize : shortlen (bignumDigits n) < 2 ^ 31) :
    ∃ bs, wObjectBignum limit n = .ok bs ∧
      ∀ rest, rObject0 (bs ++ rest) = .ok (.integer (bignorm (.bignum n)), rest) := by
  set ds := bignumDigits n with hds
  obtain ⟨hlen, hval⟩ := wBignumDigits_spec (trimmed_bignumDigits n)
  rw [← hds] at hlen hval
  -- the length in shorts is a long that `w_long` writes
  have hslen : (BitVec.ofNat 64 (shortlen ds)).toInt = shortlen ds := by
    rw [BitVec.toInt_ofNat', Int.bmod_eq_of_le] <;> push_cast <;> omega
  obtain ⟨lenBytes, hw⟩ := wLong_isOk_of_range (x := BitVec.ofNat 64 (shortlen ds))
    (by rw [hslen]; omega)
  have hmax : ¬longMax < (shortlen ds : ℤ) := by
    rw [longMax]
    omega
  refine ⟨typeBignum :: (if 0 ≤ n then '+'.toUInt8 else '-'.toUInt8) :: lenBytes ++
    wBignumDigits ds, ?_, fun rest => ?_⟩
  · simp only [wObjectBignum, wObjectLimit_of_ne hl, bind, Except.bind, if_neg hmax, hw, pure,
      Except.pure, ← hds]
  -- reading it back: the sign, the length, and then exactly the shorts
  have hnum : Nat.ofDigits (2 ^ 32) ds = n.natAbs := Nat.ofDigits_digits _ _
  have hpos : 0 < shortlen ds := by
    have hne : ds ≠ [] := by
      rw [hds, bignumDigits, Ne, Nat.digits_eq_nil_iff_eq_zero, Int.natAbs_eq_zero]
      exact hn
    have hb : 0 < (wBignumDigits ds).length := by
      rw [List.length_pos_iff]
      intro h
      rw [h, bytesVal_nil, hnum] at hval
      exact hn (Int.natAbs_eq_zero.mp hval.symm)
    omega
  have hread := rLong_append_of_wLong hw (wBignumDigits ds ++ rest)
  have hbytes : rBytes0 (BitVec.ofNat 64 (shortlen ds) * 2) (wBignumDigits ds ++ rest) =
      .ok (wBignumDigits ds, rest) := by
    refine rBytes0_append ?_ rest
    rw [BitVec.toInt_mul, hslen, show (2 : Long).toInt = 2 from rfl, hlen,
      Int.bmod_eq_of_le] <;> push_cast <;> omega
  have hnat : (BitVec.ofNat 64 (shortlen ds)).toNat = shortlen ds := by
    rw [BitVec.toNat_ofNat, Nat.mod_eq_of_lt (by omega)]
  have hunpack : rbIntegerUnpackShorts (wBignumDigits ds) (shortlen ds)
      (decide ((if 0 ≤ n then '+'.toUInt8 else '-'.toUInt8) = '-'.toUInt8)) =
        bignorm (.bignum n) := by
    rw [rbIntegerUnpackShorts, ← hlen, List.take_length, hval, hnum]
    congr 2
    by_cases hn0 : 0 ≤ n
    · rw [if_pos hn0, if_neg (by decide)]
      omega
    · rw [if_neg hn0, if_pos (by decide)]
      omega
  simp only [List.cons_append, List.append_assoc, rObject0, rBignum, rByte, bind, Except.bind,
    hread, hbytes, hnat, hunpack, pure, Except.pure]
  rfl

/-- **What `w_object` wrote for a Bignum reads back.** Whatever the limit was, a dump of a Bignum
that is not zero is `TYPE_BIGNUM` and what `rBignum` reads as the canonical `Integer` of `n`;
the object reader of a graph reads it that way. -/
theorem wObjectBignum_ok_load (hn : n ≠ 0) {bs : List UInt8}
    (hw : wObjectBignum limit n = .ok bs) :
    ∃ bs', bs = typeBignum :: bs' ∧
      ∀ rest, rBignum (bs' ++ rest) = .ok (bignorm (.bignum n), rest) := by
  have hl : limit ≠ 0 := by
    rintro rfl
    cases hw
  have hw' := hw
  rw [wObjectBignum, wObjectLimit_of_ne hl, Except.ok_bind] at hw'
  dsimp only at hw'
  have hmax : ¬longMax < (shortlen (bignumDigits n) : ℤ) := by
    intro hmax
    rw [if_pos hmax] at hw'
    cases hw'
  rw [if_neg hmax] at hw'
  obtain ⟨lb, hlb, hbs⟩ := Except.bind_eq_ok hw'
  -- `w_long` took the length in shorts, so it is below `2 ^ 31`
  have hsize : shortlen (bignumDigits n) < 2 ^ 31 := by
    have hslen : (BitVec.ofNat 64 (shortlen (bignumDigits n))).toInt =
        shortlen (bignumDigits n) := by
      rw [longMax] at hmax
      rw [BitVec.toInt_ofNat', Int.bmod_eq_of_le] <;> push_cast <;> omega
    by_contra hbig
    rw [wLong_of_not_range (by rw [hslen]; omega)] at hlb
    cases hlb
  obtain ⟨bs0, hw0, hload⟩ := wObjectBignum_load hl hn hsize
  obtain rfl : bs0 = bs := Except.ok.inj (hw0.symm.trans hw)
  refine ⟨_, (Except.ok.inj hbs).symm, fun rest => ?_⟩
  have h := hload rest
  rw [← Except.ok.inj hbs] at h
  simp only [List.cons_append, rObject0, rByte, Except.ok_bind, if_neg (by decide : ¬typeBignum = typeFixnum), if_true] at h
  obtain ⟨⟨r, s⟩, hr, hpure⟩ := Except.bind_eq_ok h
  cases hpure
  exact hr

/-- Reading back a Fixnum that passes the 32-bit test: `'i'` and its `w_long`. -/
theorem wObjectInteger_fixnum_load {v : Value} (hv : fixnumP v = true) (hl : limit ≠ 0)
    (hg : v.sshiftRight 31 = 0 ∨ v.sshiftRight 31 = -1) :
    ∃ bs, wObjectInteger limit (.fixnum v) = .ok bs ∧
      ∀ rest, rObject0 (bs ++ rest) = .ok (.integer (.fixnum v), rest) := by
  have hrange := (wLong_guard_iff v).mp hg
  have hfix : -2 ^ 31 ≤ (fix2long v).toInt ∧ (fix2long v).toInt < 2 ^ 31 := by
    rw [toInt_fix2long]
    omega
  obtain ⟨bs, hw⟩ := wLong_isOk_of_range hfix
  refine ⟨typeFixnum :: bs, ?_, fun rest => ?_⟩
  · simp only [wObjectInteger, wObjectLimit_of_ne hl, bind, Except.bind, if_pos hg, hw, pure,
      Except.pure]
  · simp only [List.cons_append, rObject0, rByte, bind, Except.bind, if_true,
      rLong_append_of_wLong hw rest, pure, Except.pure, long2fix_fix2long hv]

/-- Reading back a Fixnum that fails the 32-bit test: it is dumped as a Bignum one level down,
and `rb_integer_unpack` makes the Fixnum again. -/
theorem wObjectInteger_fixnum_big_load {v : Value} (hv : fixnumP v = true) (hl : limit ≠ 0)
    (hl1 : limit ≠ 1) (hg : ¬(v.sshiftRight 31 = 0 ∨ v.sshiftRight 31 = -1)) :
    ∃ bs, wObjectInteger limit (.fixnum v) = .ok bs ∧
      ∀ rest, rObject0 (bs ++ rest) = .ok (.integer (.fixnum v), rest) := by
  have hrange := mt (wLong_guard_iff v).mpr hg
  have hv2 := toInt_fix2long v
  have hfix := fixableP_iff.mp (fixableP_fix2long v)
  -- the value is not zero, and two digits hold it
  have hn : (fix2long v).toInt ≠ 0 := by omega
  have hdigits : (bignumDigits (fix2long v).toInt).length ≤ 2 := by
    rw [bignumDigits, Nat.digits_length_le_iff (by norm_num)]
    omega
  have hsize : shortlen (bignumDigits (fix2long v).toInt) < 2 ^ 31 :=
    lt_of_le_of_lt (shortlen_le (trimmed_bignumDigits _)) (by omega)
  have hl' : (if 0 < limit then limit - 1 else limit) ≠ 0 := by
    split_ifs <;> omega
  obtain ⟨bs, hw, hload⟩ := wObjectBignum_load hl' hn hsize
  refine ⟨bs, ?_, fun rest => ?_⟩
  · simp only [wObjectInteger, wObjectLimit_of_ne hl, bind, Except.bind, if_neg hg, rbInt2big,
      RInteger.val, hw]
  · rw [hload rest, bignorm, if_pos (fixableP_fix2long v), BitVec.ofInt_toInt,
      long2fix_fix2long hv]

/-- The levels of `w_object` that the dump of an `Integer` goes through: a Fixnum that fails
the 32-bit test is dumped a second time, as a Bignum. -/
def dumpDepth : RInteger → ℕ
  | .fixnum v => if v.sshiftRight 31 = 0 ∨ v.sshiftRight 31 = -1 then 1 else 2
  | .bignum _ => 1

/-- **Every `Integer` the limit allows is dumped and read back.** -/
theorem wObjectInteger_load {r : RInteger} (hr : r.Canonical)
    (hlimit : limit < 0 ∨ (dumpDepth r : ℤ) ≤ limit)
    (hsize : shortlen (bignumDigits r.val) < 2 ^ 31) :
    ∃ bs, wObjectInteger limit r = .ok bs ∧
      ∀ rest, rObject0 (bs ++ rest) = .ok (.integer r, rest) := by
  cases r with
  | fixnum v =>
    by_cases hg : v.sshiftRight 31 = 0 ∨ v.sshiftRight 31 = -1
    · rw [dumpDepth, if_pos hg] at hlimit
      exact wObjectInteger_fixnum_load hr (by omega) hg
    · rw [dumpDepth, if_neg hg] at hlimit
      exact wObjectInteger_fixnum_big_load hr (by omega) (by omega) hg
  | bignum n =>
    -- a canonical Bignum is not fixable, so not zero, and `bignorm` keeps it
    have hn : n ≠ 0 := by
      rintro rfl
      exact absurd (show fixableP 0 = false from hr) (by decide)
    have hl : limit ≠ 0 := by
      rw [dumpDepth] at hlimit
      omega
    obtain ⟨bs, hw, hload⟩ := wObjectBignum_load hl hn hsize
    refine ⟨bs, hw, fun rest => ?_⟩
    rw [hload rest, bignorm, if_neg (by simpa [RInteger.Canonical] using hr)]

/-- **`Marshal.load(Marshal.dump(n, limit))` is `n`** for every canonical `Integer` that the
limit allows and that has fewer than `2 ^ 31` shorts, whatever bytes follow the dump. -/
theorem marshalLoad_marshalDump {r : RInteger} (hr : r.Canonical)
    (hlimit : limit < 0 ∨ (dumpDepth r : ℤ) ≤ limit)
    (hsize : shortlen (bignumDigits r.val) < 2 ^ 31) (rest : List UInt8) :
    (marshalDump limit r).bind (fun bs => marshalLoad (bs ++ rest)) = .ok (.integer r) := by
  obtain ⟨bs, hw, hload⟩ := wObjectInteger_load hr hlimit hsize
  simp only [marshalDump, bind, Except.bind, hw, pure, Except.pure, List.cons_append,
    marshalLoad, rByte]
  rw [if_neg (by decide), hload rest]

theorem marshalLoad_marshalDump_two_pow_forty :
    (RInteger.fixnum (long2fix (2 ^ 40))).Canonical ∧
      (marshalDump 2 (.fixnum (long2fix (2 ^ 40)))).bind (fun bs => marshalLoad (bs ++ [0])) =
        .ok (.integer (.fixnum (long2fix (2 ^ 40)))) :=
  ⟨fixnumP_long2fix _,
    marshalLoad_marshalDump (r := .fixnum (long2fix (2 ^ 40))) (fixnumP_long2fix _)
      (.inr (by decide)) (by decide) [0]⟩

/-- Past its depth check, `w_object` on a Bignum raises only for its size. -/
theorem wObjectBignum_error (h0 : limit ≠ 0) {e : MarshalError}
    (h : wObjectBignum limit n = .error e) : e = .tooBigBignum ∨ e = .longTooBigToDump := by
  rw [wObjectBignum, wObjectLimit_of_ne h0, Except.ok_bind] at h
  dsimp only at h
  by_cases hmax : longMax < (shortlen (bignumDigits n) : ℤ)
  · rw [if_pos hmax] at h
    cases h
    exact .inl rfl
  · rw [if_neg hmax] at h
    obtain h | ⟨_, -, h⟩ := Except.bind_eq_error.mp h
    · exact .inr (wLong_eq_error h)
    · cases h

/-- `w_object` on a Bignum raises `exceed depth limit` exactly at a limit of `0`. -/
theorem wObjectBignum_exceed_iff : wObjectBignum limit n = .error .exceedDepthLimit ↔ limit = 0 := by
  constructor
  · intro h
    by_contra h0
    rcases wObjectBignum_error h0 h with h' | h' <;> cases h'
  · rintro rfl
    rfl

theorem marshalDump_eq_error {r : RInteger} {e : MarshalError} :
    marshalDump limit r = .error e ↔ wObjectInteger limit r = .error e := by
  rw [marshalDump, Except.bind_eq_error]
  constructor
  · rintro (h | ⟨_, -, h⟩)
    · exact h
    · cases h
  · exact .inl

/-- **The depth limit of a dump.** `Marshal.dump(n, limit)` raises `exceed depth limit`
exactly when the limit is not negative and below the levels the dump goes through: a limit of
`1` refuses a Fixnum outside `[-2 ^ 30, 2 ^ 30)`, which is dumped a second time as a Bignum,
and no Bignum. -/
theorem marshalDump_exceed_iff (limit : ℤ) (r : RInteger) :
    marshalDump limit r = .error .exceedDepthLimit ↔ 0 ≤ limit ∧ limit < dumpDepth r := by
  rw [marshalDump_eq_error]
  cases r with
  | bignum n =>
    rw [wObjectInteger, wObjectBignum_exceed_iff, dumpDepth]
    omega
  | fixnum v =>
    by_cases h0 : limit = 0
    · subst h0
      refine iff_of_true rfl ⟨le_rfl, ?_⟩
      rw [dumpDepth]
      split_ifs <;> decide
    rw [wObjectInteger, wObjectLimit_of_ne h0, Except.ok_bind, dumpDepth]
    by_cases hg : v.sshiftRight 31 = 0 ∨ v.sshiftRight 31 = -1
    · -- one level: `w_long` raises nothing but its own guard
      rw [if_pos hg, if_pos hg, Except.bind_eq_error]
      constructor
      · rintro (h | ⟨_, -, h⟩)
        · cases wLong_eq_error h
        · cases h
      · intro h
        omega
    · -- two levels: the Bignum's call gets the limit less one
      rw [if_neg hg, if_neg hg, wObjectBignum_exceed_iff]
      split_ifs <;> omega

end RoundTrip

end CRuby.Marshal
