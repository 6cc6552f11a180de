import CRuby.Num.Isqrt
import Mathlib.Data.Nat.Digits.Defs
import Mathlib.Data.Nat.Size

/-!
# `rb_integer_pack` and `rb_integer_unpack` (bignum.c)

`rb_integer_pack` writes the absolute value of an `Integer` into `numwords` words of `wordsize`
bytes, each word holding `wordsize * CHAR_BIT - nails` bits of the value; `rb_integer_unpack`
reads such words back. Both go through a `BDIGIT_DBL` accumulator `dd` holding
`numbits_in_dd` bits: `bary_pack` fills it with 32-bit `BDIGIT`s from below and takes bytes off
its low end, `bary_unpack_internal` pushes the bits of the bytes in and takes `BDIGIT`s off.

An LP64 build is modelled: a `BDIGIT` is 32 bits and `BDIGIT_DBL` 64 bits. The digits of a
value are natural numbers below `2 ^ 32`, least significant first, and `dd` a natural number
(the shifts into it are reduced modulo `2 ^ 64` as the C code's are).

What is modelled is what `pack('w')` and `unpack('w')` reach: no `INTEGER_PACK_2COMP`, no
`INTEGER_PACK_NEGATIVE`, no `INTEGER_PACK_FORCE_BIGNUM`, and `nails > 0`. With nails, the only
fast path of `bary_pack` taken is the one for zero (`MEMZERO`); every other fast path of
`bary_pack` and `bary_unpack_internal` needs `nails == 0`.
-/

namespace CRuby.Num

/-- `SIZE_MAX`, what `rb_absint_numwords` returns for a word of no bits. -/
def sizeMax : ℕ := 2 ^ 64 - 1

/-- The `BDIGIT`s of an `Integer`, least significant first, as `rb_absint_size` and
`rb_integer_pack` read them: for a Fixnum `v` the two digits `BIGLO(|v|)` and
`BIGLO(BIGDN(|v|))` of `fixbuf`, for a Bignum its `BIGNUM_LEN` digits. -/
def bdigitsOf (x : ℤ) : List ℕ :=
  if fixableP x then [x.natAbs % 2 ^ 32, x.natAbs / 2 ^ 32 % 2 ^ 32]
  else Nat.digits (2 ^ 32) x.natAbs

/-- `while (dp < de && de[-1] == 0) de--;`: the zero digits at the top dropped. -/
def stripTop (ds : List ℕ) : List ℕ := (ds.reverse.dropWhile (· == 0)).reverse

/-- `rb_absint_size(val, &nlz_bits)` on the digits of `val`: the bytes of `|val|`, and the
leading zero bits of its top byte. -/
def rbAbsintSize (ds : List ℕ) : ℕ × ℕ :=
  match (stripTop ds).getLast? with
  | none => (0, 0)
  | some top => ((stripTop ds).length * 4 - nlz top / 8, nlz top % 8)

/-- `absint_numwords_small(numbytes, nlz_bits_in_msbyte, word_numbits, &nlz_bits)`: the words of
`word_numbits` bits that the value's bits fill, and the leading zero bits of the top word. -/
def absintNumwordsSmall (numbytes nlzBitsInMsbyte wordNumbits : ℕ) : ℕ × ℕ :=
  let valNumbits := numbytes * 8 - nlzBitsInMsbyte
  let div := valNumbits / wordNumbits
  let mod := valNumbits % wordNumbits
  (if mod = 0 then div else div + 1, if mod = 0 then 0 else wordNumbits - mod)

/-- `rb_absint_numwords(val, word_numbits, NULL)`. -/
def rbAbsintNumwords (x : ℤ) (wordNumbits : ℕ) : ℕ :=
  if wordNumbits = 0 then sizeMax
  else
    let (numbytes, nlzBits) := rbAbsintSize (bdigitsOf x)
    (absintNumwordsSmall numbytes nlzBits wordNumbits).1

/-! ## `bary_pack` -/

/-- The locals of the generic loop of `bary_pack`: the digits `dp .. de` not read yet, `dd` and
`numbits_in_dd`. -/
structure PackDd where
  dp : List ℕ
  dd : ℕ
  numbits : ℕ

/-- `integer_pack_fill_dd`: the next digit goes above the bits held when it fits the 64 bits of
`dd`; past the last digit `dd` counts as holding infinitely many zeros. -/
def integerPackFillDd (s : PackDd) : PackDd :=
  match s.dp with
  | d :: dp =>
    if 32 ≤ 64 - s.numbits then ⟨dp, (s.dd ||| d <<< s.numbits) % 2 ^ 64, s.numbits + 32⟩
    else s
  | [] => { s with numbits := 64 }

/-- `integer_pack_take_lowbits(n, &dd, &numbits_in_dd)`. -/
def integerPackTakeLowbits (n : ℕ) (s : PackDd) : ℕ × PackDd :=
  (s.dd &&& (2 ^ n - 1), { s with dd := s.dd >>> n, numbits := s.numbits - n })

/-- `FILL_DD; *bytep = TAKE_LOWBITS(n);`: a byte of `n` bits, stored into an `unsigned char`. -/
def packByte (n : ℕ) (s : PackDd) : UInt8 × PackDd :=
  let (b, s) := integerPackTakeLowbits n (integerPackFillDd s)
  (UInt8.ofNat b, s)

/-- `integer_pack_loop_setup`, the shape of a word: its full bytes and the bits of its partial
byte (`0` when the nails are whole bytes). The word and byte orders are `integerPackLayout`. -/
def integerPackLoopSetup (wordsize nails : ℕ) : ℕ × ℕ :=
  let partialbits := 8 - nails % 8
  let partialbits := if partialbits = 8 then 0 else partialbits
  let fullbytes := wordsize - nails / 8
  (if partialbits ≠ 0 then fullbytes - 1 else fullbytes, partialbits)

/-- `while (index_in_word < word_num_fullbytes)`: the full bytes of a word. -/
def packFullBytes : ℕ → PackDd → List UInt8 × PackDd
  | 0, s => ([], s)
  | k + 1, s =>
    let (b, s) := packByte 8 s
    let (bs, s) := packFullBytes k s
    (b :: bs, s)

/-- One word of the loop of `bary_pack`, its bytes least significant first: the full bytes, the
partial byte, then zero bytes up to `wordsize`. -/
def integerPackWord (fullbytes partialbits wordsize : ℕ) (s : PackDd) : List UInt8 × PackDd :=
  let (full, s) := packFullBytes fullbytes s
  let (part, s) :=
    if partialbits ≠ 0 then
      let (b, s) := packByte partialbits s
      ([b], s)
    else ([], s)
  (full ++ part ++ List.replicate (wordsize - (fullbytes + part.length)) 0, s)

/-- The word loop of `bary_pack`: `numwords` words, least significant first. -/
def integerPackWords (fullbytes partialbits wordsize : ℕ) :
    ℕ → PackDd → List (List UInt8) × PackDd
  | 0, s => ([], s)
  | k + 1, s =>
    let (w, s) := integerPackWord fullbytes partialbits wordsize s
    let (ws, s) := integerPackWords fullbytes partialbits wordsize k s
    (w :: ws, s)

/-- Where the loop writes: word after word from `word_start` by `word_step`, byte after byte from
`byte_start` by `byte_step`. Most significant first reverses the words, or the bytes of each
word. -/
def integerPackLayout (msWordFirst msByteFirst : Bool) (ws : List (List UInt8)) : List UInt8 :=
  let ws := if msByteFirst then ws.map List.reverse else ws
  (if msWordFirst then ws.reverse else ws).flatten

/-- The generic path of `bary_pack` without `INTEGER_PACK_2COMP` on the digits with the top zeros
dropped: the bytes, and the sign doubled when the value does not fit. -/
def baryPackGeneric (sign : ℤ) (ds : List ℕ) (numwords wordsize nails : ℕ)
    (msWordFirst msByteFirst : Bool) : ℤ × List UInt8 :=
  if numwords * wordsize = 0 then (sign * 2, [])
  else if ds = [] then (sign, List.replicate (numwords * wordsize) 0)
  else
    let (fullbytes, partialbits) := integerPackLoopSetup wordsize nails
    let (ws, s) := integerPackWords fullbytes partialbits wordsize numwords ⟨ds, 0, 0⟩
    let s := integerPackFillDd s
    -- the overflow tests: bits left over, in the digits or above the last word in `dd`
    let sign := if s.dp ≠ [] ∨ 1 < s.dd then sign * 2 else if s.dd = 1 then sign * 2 else sign
    (sign, integerPackLayout msWordFirst msByteFirst ws)

/-- `bary_pack(sign, ds, num_bdigits, words, numwords, wordsize, nails, flags)` for `nails > 0`
without `INTEGER_PACK_2COMP` and `INTEGER_PACK_FORCE_GENERIC_IMPLEMENTATION`: a zero value is
written by `MEMZERO`, anything else by the generic path. -/
def baryPack (sign : ℤ) (ds : List ℕ) (numwords wordsize nails : ℕ)
    (msWordFirst msByteFirst : Bool) : ℤ × List UInt8 :=
  let ds := stripTop ds
  let sign := if ds = [] then 0 else sign
  if sign = 0 then (0, List.replicate (numwords * wordsize) 0)
  else baryPackGeneric sign ds numwords wordsize nails msWordFirst msByteFirst

/-- `rb_integer_pack(val, words, numwords, wordsize, nails, flags)`: the sign of `val` and its
digits given to `bary_pack`. -/
def rbIntegerPack (x : ℤ) (numwords wordsize nails : ℕ) (msWordFirst msByteFirst : Bool) :
    ℤ × List UInt8 :=
  baryPack (if x < 0 then -1 else 1) (bdigitsOf x) numwords wordsize nails msWordFirst msByteFirst

/-! ## `bary_unpack_internal` -/

/-- `integer_unpack_num_bdigits_small(numwords, wordsize, nails, &nlp_bits)`: the digits the
bits of the words need, and the padding bits of the top digit. -/
def integerUnpackNumBdigitsSmall (numwords wordsize nails : ℕ) : ℕ × ℕ :=
  let numBits := (wordsize * 8 - nails) * numwords
  let numBdigits := (numBits + 32 - 1) / 32
  (numBdigits, numBdigits * 32 - numBits)

/-- The locals of the generic loop of `bary_unpack_internal`: the digits written so far, `dd`
and `numbits_in_dd`. -/
structure UnpackDd where
  out : List ℕ
  dd : ℕ
  numbits : ℕ

/-- The `while (BITSPERDIG <= *numbits_in_dd_p)` loop of `integer_unpack_push_bits`: every full
digit of `dd` written out, `BIGLO(dd)` then `dd = BIGDN(dd)`. -/
def unpackFlush (s : UnpackDd) : UnpackDd :=
  if 32 ≤ s.numbits then unpackFlush ⟨s.out ++ [s.dd % 2 ^ 32], s.dd >>> 32, s.numbits - 32⟩
  else s
termination_by s.numbits

/-- `integer_unpack_push_bits(data, numbits, &dd, &numbits_in_dd, &dp)`. -/
def integerUnpackPushBits (data numbits : ℕ) (s : UnpackDd) : UnpackDd :=
  unpackFlush ⟨s.out, (s.dd ||| data <<< s.numbits) % 2 ^ 64, s.numbits + numbits⟩

/-- One word of the loop of `bary_unpack_internal`, its bytes least significant first: each
full byte, then the partial byte masked to its bits; the nail bytes are not read. -/
def integerUnpackWord (fullbytes partialbits : ℕ) (bytes : List UInt8) (s : UnpackDd) :
    UnpackDd :=
  let s := (bytes.take fullbytes).foldl (fun s b => integerUnpackPushBits b.toNat 8 s) s
  if partialbits ≠ 0 then
    integerUnpackPushBits ((bytes.getD fullbytes 0).toNat &&& (2 ^ partialbits - 1)) partialbits s
  else s

/-- The `numwords` words of a buffer, in the buffer's order. -/
def bufWords (wordsize : ℕ) : ℕ → List UInt8 → List (List UInt8)
  | 0, _ => []
  | k + 1, buf => buf.take wordsize :: bufWords wordsize k (buf.drop wordsize)

/-- The words as the loop reads them, from `word_start` by `word_step` and each from
`byte_start` by `byte_step`: least significant first. -/
def integerUnpackOrder (msWordFirst msByteFirst : Bool) (ws : List (List UInt8)) :
    List (List UInt8) :=
  let ws := if msWordFirst then ws.reverse else ws
  if msByteFirst then ws.map List.reverse else ws

/-- The generic path of `bary_unpack_internal` without `INTEGER_PACK_2COMP` and
`INTEGER_PACK_NEGATIVE`: the sign 1 and the `num_bdigits` digits, the last partial digit
written if not zero and the rest zero. -/
def baryUnpackGeneric (numBdigits numwords wordsize nails : ℕ) (msWordFirst msByteFirst : Bool)
    (buf : List UInt8) : ℤ × List ℕ :=
  if numBdigits ≠ 0 then
    let (fullbytes, partialbits) := integerPackLoopSetup wordsize nails
    let s := (integerUnpackOrder msWordFirst msByteFirst (bufWords wordsize numwords buf)).foldl
      (fun s w => integerUnpackWord fullbytes partialbits w s) ⟨[], 0, 0⟩
    let out := if s.dd ≠ 0 then s.out ++ [s.dd % 2 ^ 32] else s.out
    (1, out ++ List.replicate (numBdigits - out.length) 0)
  else (1, [])

/-- `rb_integer_unpack(words, numwords, wordsize, nails, flags)` for `nails > 0` without
`INTEGER_PACK_2COMP`, `INTEGER_PACK_NEGATIVE` and `INTEGER_PACK_FORCE_BIGNUM`: the `Integer`
that `bignorm` makes of the digits, as the number it stands for. -/
def rbIntegerUnpack (buf : List UInt8) (numwords wordsize nails : ℕ)
    (msWordFirst msByteFirst : Bool) : ℤ :=
  let (numBdigits, _) := integerUnpackNumBdigitsSmall numwords wordsize nails
  let (sign, ds) := baryUnpackGeneric numBdigits numwords wordsize nails msWordFirst msByteFirst buf
  sign * (Nat.ofDigits (2 ^ 32) ds : ℕ)

end CRuby.Num
