import CRuby.Pack.Encode
import CRuby.Util.Digits

/-!
# The text decoders of `String#unpack` (pack.c)

`pack_unpack_internal` reads the directives `u`, `m` and `M` back into bytes:

* `u` reads lines: a length character in `!`..`` ` ``, groups of four characters each giving
  up to three bytes (a missing or out-of-range character counts as 0), then an optional
  checksum character, `\r` and `\n`. The bytes of all lines are clipped to a buffer of
  three quarters of the input;
* `m` with a count other than 0 skips every byte that is not a base64 character, and stops at
  `=` in the third or fourth place of a group, keeping the bytes of the partial group;
  `m0` is strict and raises `ArgumentError` on anything but padded base64 without separators;
* `M` decodes `=XX`, drops the soft line breaks `=\n` and `=\r\n`, and copies every other byte;
  at a malformed escape it stops and copies the rest of the input from the `=` on.

A C loop that reads its input through a pointer is a function on the rest of the input; the
loops that may stop early return what they have not read. Reading the byte at `send` sees the
string's terminating NUL, which no table maps to a digit: the model reads nothing there.
-/

namespace CRuby.Pack

open CRuby.Util

/-- The three bytes of a group of four six-bit values `a b c d`, as both decoders compute
them: `a << 2 | b >> 4`, `b << 4 | c >> 2`, `c << 6 | d`, each cut to a `char`. -/
def hunk (a b c d : UInt8) : List UInt8 :=
  [a <<< (2 : UInt8) ||| b >>> (4 : UInt8), b <<< (4 : UInt8) ||| c >>> (2 : UInt8),
    c <<< (6 : UInt8) ||| d]

/-! ## `u` -/

/-- One character of a group of `u`: `(*s++ - ' ') & 077` when the next byte is in
`' ' .. 'a' - 1`; 0, reading nothing, at the end of the input or at any other byte. -/
def uuGetc : List UInt8 → UInt8 × List UInt8
  | c :: s =>
    if ' '.toUInt8 ≤ c ∧ c < 'a'.toUInt8 then ((c - ' '.toUInt8) &&& 0o77, s) else (0, c :: s)
  | [] => (0, [])

/-- The four characters of one group of `u` and the three bytes they give. -/
def uuGetGroup (s : List UInt8) : List UInt8 × List UInt8 :=
  let (a, s) := uuGetc s
  let (b, s) := uuGetc s
  let (c, s) := uuGetc s
  let (d, s) := uuGetc s
  (hunk a b c d, s)

/-- The inner loop of `u`: `len` bytes from groups of four characters, at most three
(`mlen`) from each; the bytes and the rest of the input. -/
def uuDecodeHunks (len : ℕ) (s : List UInt8) : List UInt8 × List UInt8 :=
  if len = 0 then ([], s)
  else
    let (hunk, s) := uuGetGroup s
    let mlen := min len 3
    let (out, s) := uuDecodeHunks (len - mlen) s
    (hunk.take mlen ++ out, s)
termination_by len

/-- Steps over the first byte when it satisfies `p`. -/
def skipIf (p : UInt8 → Prop) [DecidablePred p] : List UInt8 → List UInt8
  | c :: s => if p c then s else c :: s
  | [] => []

/-- The end of a line of `u`: a checksum character unless the byte is `\r` or `\n`, then `\r`,
then `\n`. -/
def uuSkipEol (s : List UInt8) : List UInt8 :=
  skipIf (· = '\n'.toUInt8) <| skipIf (· = '\r'.toUInt8) <|
    skipIf (fun c => c ≠ '\r'.toUInt8 ∧ c ≠ '\n'.toUInt8) s

/-! The reading functions of `u` leave a suffix of their input; the line loop terminates by it. -/

theorem uuGetc_suffix (s : List UInt8) : (uuGetc s).2 <:+ s := by
  cases s with
  | nil => exact List.suffix_refl _
  | cons c s =>
    simp only [uuGetc]
    split
    · exact List.suffix_cons _ _
    · exact List.suffix_refl _

theorem uuGetGroup_suffix (s : List UInt8) : (uuGetGroup s).2 <:+ s := by
  rcases h1 : uuGetc s with ⟨a, s1⟩
  rcases h2 : uuGetc s1 with ⟨b, s2⟩
  rcases h3 : uuGetc s2 with ⟨c, s3⟩
  rcases h4 : uuGetc s3 with ⟨d, s4⟩
  have e1 : s1 <:+ s := by simpa [h1] using uuGetc_suffix s
  have e2 : s2 <:+ s1 := by simpa [h2] using uuGetc_suffix s1
  have e3 : s3 <:+ s2 := by simpa [h3] using uuGetc_suffix s2
  have e4 : s4 <:+ s3 := by simpa [h4] using uuGetc_suffix s3
  simpa [uuGetGroup, h1, h2, h3, h4] using e4.trans (e3.trans (e2.trans e1))

theorem uuDecodeHunks_suffix (len : ℕ) (s : List UInt8) : (uuDecodeHunks len s).2 <:+ s := by
  induction len using Nat.strong_induction_on generalizing s with
  | _ len ih =>
    rw [uuDecodeHunks]
    split
    · exact List.suffix_refl _
    · rcases hg : uuGetGroup s with ⟨h, s1⟩
      have e1 : s1 <:+ s := by simpa [hg] using uuGetGroup_suffix s
      simpa using (ih (len - min len 3) (by omega) s1).trans e1

theorem skipIf_suffix (p : UInt8 → Prop) [DecidablePred p] (s : List UInt8) :
    skipIf p s <:+ s := by
  cases s with
  | nil => exact List.suffix_refl _
  | cons c s =>
    simp only [skipIf]
    split
    · exact List.suffix_cons _ _
    · exact List.suffix_refl _

theorem uuSkipEol_suffix (s : List UInt8) : uuSkipEol s <:+ s :=
  (skipIf_suffix _ _).trans ((skipIf_suffix _ _).trans (skipIf_suffix _ _))

/-- The line loop of `u`, with `total` bytes already decoded into a buffer of `buflen` bytes:
a line runs while the next byte is in `!` .. `` ` ``; its length is clipped so that `total`
never passes `buflen`. -/
def unpackULines (buflen total : ℕ) (s : List UInt8) : List UInt8 :=
  match s with
  | c :: s' =>
    if ' '.toUInt8 < c ∧ c < 'a'.toUInt8 then
      let len := ((c - ' '.toUInt8) &&& 0o77).toNat
      -- `total += len; if (total > RSTRING_LEN(buf)) { len -= total - ...; total = ...; }`
      let total' := total + len
      let len := if total' > buflen then len - (total' - buflen) else len
      let total := if total' > buflen then buflen else total'
      let r := uuDecodeHunks len s'
      r.1 ++ unpackULines buflen total (uuSkipEol r.2)
    else []
  | [] => []
termination_by s.length
decreasing_by
  simp only [List.length_cons]
  exact Nat.lt_succ_of_le ((uuSkipEol_suffix _).trans (uuDecodeHunks_suffix _ s')).length_le

/-- `u`: the buffer holds `(send - s) * 3 / 4` bytes. -/
def unpackU (s : List UInt8) : List UInt8 := unpackULines (s.length * 3 / 4) 0 s

/-! ## `m` -/

/-- `b64_xtable`, filled from `b64_table` on first use: the index of a base64 character,
-1 (`none`) for every other byte. -/
def b64Xtable (c : UInt8) : Option UInt8 :=
  ((List.range 64).find? (fun i => b64Table.getD i 0 = c)).map UInt8.ofNat

/-- How far the lenient loop of `m` is into a group: which character it reads next, and the
values of those it has read. -/
inductive B64Stage
  | readA
  | readB (a : UInt8)
  | readC (a b : UInt8)
  | readD (a b c : UInt8)

/-- What the lenient loop of `m` writes after a group cut short (`a != -1 && b != -1` after the
loop): one byte for two characters, two for three. -/
def B64Stage.flush : B64Stage → List UInt8
  | .readC a b => [a <<< (2 : UInt8) ||| b >>> (4 : UInt8)]
  | .readD a b c =>
    [a <<< (2 : UInt8) ||| b >>> (4 : UInt8), b <<< (4 : UInt8) ||| c >>> (2 : UInt8)]
  | _ => []

/-- The lenient loop of `m` (a count other than 0). The C code reads a group by four loops that
each skip bytes that are not base64 characters; here the bytes are read one at a time and
`st` says which of the four loops reads the next one. The loops for the third and fourth
character stop at `=`, and the decoding ends there with the bytes of the partial group. -/
def unpackMLenientLoop : B64Stage → List UInt8 → List UInt8
  | st, [] => st.flush
  | st, x :: s =>
    match b64Xtable x, st with
    | some v, .readA => unpackMLenientLoop (.readB v) s
    | some v, .readB a => unpackMLenientLoop (.readC a v) s
    | some v, .readC a b => unpackMLenientLoop (.readD a b v) s
    | some v, .readD a b c => hunk a b c v ++ unpackMLenientLoop .readA s
    | none, .readC a b =>
      if x = '='.toUInt8 then st.flush else unpackMLenientLoop (.readC a b) s
    | none, .readD a b c =>
      if x = '='.toUInt8 then st.flush else unpackMLenientLoop (.readD a b c) s
    | none, st => unpackMLenientLoop st s

section Steps

/-! The lenient loop one byte at a time: what each of its four reads does with a base64
character, with `=` and with another byte. Proofs use these rows and never unfold the whole
match. -/

variable {x v : UInt8} (s : List UInt8)

theorem unpackMLenientLoop_nil (st : B64Stage) : unpackMLenientLoop st [] = st.flush := rfl

theorem unpackMLenientLoop_readA (hx : b64Xtable x = some v) :
    unpackMLenientLoop .readA (x :: s) = unpackMLenientLoop (.readB v) s := by
  rw [unpackMLenientLoop.eq_def]
  simp only [hx]

theorem unpackMLenientLoop_readB (a : UInt8) (hx : b64Xtable x = some v) :
    unpackMLenientLoop (.readB a) (x :: s) = unpackMLenientLoop (.readC a v) s := by
  rw [unpackMLenientLoop.eq_def]
  simp only [hx]

theorem unpackMLenientLoop_readC (a b : UInt8) (hx : b64Xtable x = some v) :
    unpackMLenientLoop (.readC a b) (x :: s) = unpackMLenientLoop (.readD a b v) s := by
  rw [unpackMLenientLoop.eq_def]
  simp only [hx]

theorem unpackMLenientLoop_readD (a b c : UInt8) (hx : b64Xtable x = some v) :
    unpackMLenientLoop (.readD a b c) (x :: s) = hunk a b c v ++ unpackMLenientLoop .readA s := by
  rw [unpackMLenientLoop.eq_def]
  simp only [hx]

/-- `=` ends the third and fourth reads, the reads that have a byte to write. -/
theorem unpackMLenientLoop_pad (st : B64Stage) (hst : st.flush ≠ [])
    (hpad : b64Xtable '='.toUInt8 = none) :
    unpackMLenientLoop st ('='.toUInt8 :: s) = st.flush := by
  rw [unpackMLenientLoop.eq_def]
  cases st with
  | readA | readB => exact absurd rfl hst
  | readC | readD => simp only [hpad, if_true]

/-- A byte that is not a base64 character is skipped by the first read. -/
theorem unpackMLenientLoop_skip (hx : b64Xtable x = none) :
    unpackMLenientLoop .readA (x :: s) = unpackMLenientLoop .readA s := by
  rw [unpackMLenientLoop.eq_def]
  simp only [hx]

end Steps

/-- The lenient decoder of `m`. -/
def unpackMLenient (s : List UInt8) : List UInt8 := unpackMLenientLoop .readA s

/-- The error `m0` raises. -/
def invalidBase64 : String := "invalid base64"

/-- The loop of `m0` after the groups already decoded into `acc`. A group is four base64
characters, or two followed by `==` or three followed by `=` at the very end of the input; the
unused bits of a padded group must be zero. Anything else raises `ArgumentError`. -/
def unpackMStrictLoop (acc : List UInt8) : List UInt8 → Except String (List UInt8)
  | [] => .ok acc
  | x :: rest =>
    match b64Xtable x, rest with
    | some a, y :: rest =>
      match b64Xtable y, rest with
      | some b, z :: rest =>
        if z = '='.toUInt8 then
          -- `if (s + 2 == send && *(s + 1) == '=') break;`, then `c == -1` after the loop
          if rest = ['='.toUInt8] then
            if b &&& 0xf ≠ 0 then .error invalidBase64
            else .ok (acc ++ [a <<< (2 : UInt8) ||| b >>> (4 : UInt8)])
          else .error invalidBase64
        else
          match b64Xtable z, rest with
          | some c, w :: rest =>
            -- `if (s + 1 == send && *s == '=') break;`, then `d == -1` after the loop
            if rest = [] ∧ w = '='.toUInt8 then
              if c &&& 0x3 ≠ 0 then .error invalidBase64
              else .ok (acc ++ [a <<< (2 : UInt8) ||| b >>> (4 : UInt8),
                b <<< (4 : UInt8) ||| c >>> (2 : UInt8)])
            else
              match b64Xtable w with
              | some d => unpackMStrictLoop (acc ++ hunk a b c d) rest
              | none => .error invalidBase64
          | _, _ => .error invalidBase64
      | _, _ => .error invalidBase64
    | _, _ => .error invalidBase64

/-- The strict loop of `m0`. -/
def unpackMStrict (s : List UInt8) : Except String (List UInt8) := unpackMStrictLoop [] s

/-! ## `M` -/

/-- `hex2num`: the value of a hexadecimal digit of either case, -1 (`none`) otherwise. -/
def hex2num (c : UInt8) : Option ℕ :=
  match rubyDigit36ToNumberTable c with
  | some n => if 16 ≤ n then none else some n
  | none => none

/-- The loop of `M`. At `=` at the end of the input, or before a byte that is not a newline
and does not start two hexadecimal digits, the loop stops and the input from the `=` on is
copied as it is. -/
def unpackM (s : List UInt8) : List UInt8 :=
  match s with
  | [] => []
  | c :: rest =>
    if c = '='.toUInt8 then
      match rest with
      | [] => [c]
      | x :: r =>
        -- `if (s+1 < send && *s == '\r' && *(s+1) == '\n') s++;`: `=\r\n` is a soft break
        if x = '\r'.toUInt8 ∧ r.head? = some '\n'.toUInt8 then unpackM r.tail
        else if x = '\n'.toUInt8 then unpackM r
        else
          match hex2num x, r with
          | some c1, y :: r' =>
            match hex2num y with
            | some c2 => UInt8.ofNat (c1 <<< 4 ||| c2) :: unpackM r'
            | none => c :: rest
          | _, _ => c :: rest
    else c :: unpackM rest
termination_by s.length
decreasing_by
  all_goals simp only [List.length_cons, List.length_tail]
  all_goals omega

/-! ## `pack_unpack_internal` -/

/-- The value `pack_unpack_internal` pushes for the directive `type` with count `len` (1 when
the directive has none) over the whole string `s`. -/
def packUnpackInternal (type : PackType) (len : ℤ) (s : List UInt8) :
    Except String (List UInt8) :=
  match type with
  | .u => .ok (unpackU s)
  | .m => if len = 0 then unpackMStrict s else .ok (unpackMLenient s)
  | .M => .ok (unpackM s)

end CRuby.Pack
