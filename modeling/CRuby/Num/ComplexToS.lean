import CRuby.Num.ComplexParse
import CRuby.Num.CstrToDbl

/-!
# `Complex#to_s` read back by `Kernel#Complex` (complex.c)

`nucomp_to_s` is `f_format(self, rb_String)`: the real part's `to_s`, a sign chosen by the sign
bit of the imaginary part (`f_tpositive_p`), the `to_s` of the imaginary part's absolute value,
a `*` if that text does not end in a digit, and `i`. The parts modelled are an Integer
(`rb_fix2str`, `rb_big2str` in base 10), a Rational (`nurat_to_s`: numerator, `/`, denominator)
and a finite Float (`flo_to_s`), whose digits `ruby_dtoa` gives (a parameter, `Dtoa`).

Every part prints as an optional `-` and a number that `read_rat_nos` reads whole (`NumTok`):
digits, then a fraction, an exponent with its sign, or a denominator. So `parse_comp` in strict
mode reads the printed text back through the same two buffers the printer wrote
(`parseComp_nucompToS`). `str2num` then sends an Integer's text to `rb_cstr_to_inum`, a
Rational's to `rb_cstr_to_rat` and a Float's to `rb_cstr_to_dbl`. With conversions that read
decimal numbers exactly, and a Float text that reads back as its Float, both parts come back
equal, in value and class, with the sign of a zero (`nucomp_to_s_round_trip`).
-/

namespace CRuby.Num

open CRuby.Util CRuby.Str

/-! ## Decimal digits -/

/-- `ruby_digitmap[d]` for a decimal digit `d`. -/
def digitByte (d : ℕ) : UInt8 := UInt8.ofNat (48 + d)

/-- The decimal digits of `u`, most significant first, as `rb_fix2str` and `rb_big2str` write
them: `do { *--b = ruby_digitmap[u % 10]; } while (u /= 10);`. -/
def decDigits (u : ℕ) : List UInt8 :=
  (if h : u / 10 = 0 then [] else decDigits (u / 10)) ++ [digitByte (u % 10)]
decreasing_by omega

/-- A group of digits: at least one, each decimal. -/
def Digits (l : List UInt8) : Prop := l ≠ [] ∧ ∀ c ∈ l, isdecimal c = true

theorem digitTable_digitByte : ∀ d < 10, rubyDigit36ToNumberTable (digitByte d) = some d := by
  decide

theorem isdecimal_digitByte : ∀ d < 10, isdecimal (digitByte d) = true := by
  decide

theorem digitsValue_append_digitByte {d : ℕ} (hd : d < 10) (l : List UInt8) :
    digitsValue 10 (l ++ [digitByte d]) = digitsValue 10 l * 10 + d := by
  simp [digitsValue, List.foldl_append, digitStep, digitTable_digitByte d hd]

theorem decDigits_eq (u : ℕ) :
    decDigits u = (if u / 10 = 0 then [] else decDigits (u / 10)) ++ [digitByte (u % 10)] := by
  rw [decDigits]
  split_ifs <;> rfl

theorem decDigits_digits (u : ℕ) : Digits (decDigits u) := by
  induction u using Nat.strong_induction_on with
  | _ u ih =>
    rw [decDigits_eq]
    refine ⟨by simp, fun c hc => ?_⟩
    rcases List.mem_append.mp hc with hc | hc
    · split_ifs at hc with h0
      · cases hc
      · exact (ih (u / 10) (by omega)).2 c hc
    · rw [List.mem_singleton.mp hc]
      exact isdecimal_digitByte _ (Nat.mod_lt _ (by decide))

theorem digitsValue_decDigits (u : ℕ) : digitsValue 10 (decDigits u) = u := by
  induction u using Nat.strong_induction_on with
  | _ u ih =>
    rw [decDigits_eq, digitsValue_append_digitByte (Nat.mod_lt _ (by decide))]
    split_ifs with h0
    · -- a single digit
      simp only [digitsValue, List.foldl_nil]
      omega
    · rw [ih (u / 10) (by omega)]
      omega

/-! ## The parts and their texts -/

/-- A finite double: its sign bit and its magnitude, a finite binary64 value. -/
structure Flo where
  neg : Bool
  mag : ℚ
  mag_nonneg : 0 ≤ mag
  finite : Binary64.IsFinite mag

/-- What `ruby_dtoa(value, 0, 0, &decpt, &sign, &e)` gives for the magnitude of a finite double:
the digits from `p` to `e`, at least one and each decimal, and `decpt`. -/
structure Dtoa where
  digits : List UInt8
  decpt : ℤ
  digits_ok : Digits digits

/-- A part of a `Complex`: an Integer, a Rational, or a finite Float. -/
inductive Part where
  | int (n : ℤ)
  | rat (q : ℚ)
  | flo (x : Flo)

/-- `Integer#to_s` (`rb_int2str(x, 10)`). -/
def intToS (n : ℤ) : List UInt8 := (if n < 0 then ['-'.toUInt8] else []) ++ decDigits n.natAbs

/-- `Rational#to_s` (`nurat_to_s`, `f_format(self, rb_String)` of rational.c): the numerator,
`/`, the denominator. -/
def ratToS (q : ℚ) : List UInt8 := intToS q.num ++ '/'.toUInt8 :: intToS q.den

/-- `sizeof(buf)` in `flo_to_s`: `float_dig + (decimal_mant + CHAR_BIT - 1) / CHAR_BIT + 10`,
with `float_dig = DBL_DIG + 1` and `decimal_mant = DBL_MANT_DIG - DBL_DIG`. -/
def floBufSize : ℕ := (dblDig + 1) + (53 - dblDig + 8 - 1) / 8 + 10

/-- `rb_str_catf(s, "e%+03d", k)`: `e`, a sign, and at least two digits. -/
def expSuffix (k : ℤ) : List UInt8 :=
  'e'.toUInt8 :: (if k < 0 then '-'.toUInt8 else '+'.toUInt8) ::
    ((if k.natAbs < 10 then ['0'.toUInt8] else []) ++ decDigits k.natAbs)

/-- The `exp:` form of `flo_to_s`: the first digit, `.`, the other digits or `0`, and the
exponent `decpt - 1`. -/
def floExp (buf : List UInt8) (decpt : ℤ) : List UInt8 :=
  (match buf with
   | d :: d' :: rest => d :: '.'.toUInt8 :: d' :: rest
   | _ => buf ++ ['.'.toUInt8, '0'.toUInt8]) ++ expSuffix (decpt - 1)

/-- `flo_to_s` after the sign, on the `digs` digits in `buf`: a point inside the digits, zeros and
`.0` up to `DBL_DIG` places, `0.` and up to three zeros before them, or the `exp:` form. -/
def floBody (buf : List UInt8) (decpt : ℤ) : List UInt8 :=
  if 0 < decpt then
    if decpt < buf.length then buf.take decpt.toNat ++ '.'.toUInt8 :: buf.drop decpt.toNat
    else if decpt ≤ dblDig then
      buf ++ List.replicate (decpt.toNat - buf.length) '0'.toUInt8 ++ ['.'.toUInt8, '0'.toUInt8]
    else floExp buf decpt
  else if -4 < decpt then
    ['0'.toUInt8, '.'.toUInt8] ++ List.replicate (-decpt).toNat '0'.toUInt8 ++ buf
  else floExp buf decpt

/-- `flo_to_s` on a finite double: `-` for the sign bit, then at most `sizeof(buf) - 1` of the
digits of `ruby_dtoa` placed by `decpt`. -/
def floToS (dtoa : ℚ → Dtoa) (x : Flo) : List UInt8 :=
  (if x.neg then ['-'.toUInt8] else []) ++
    floBody ((dtoa x.mag).digits.take (floBufSize - 1)) (dtoa x.mag).decpt

/-- `rb_String(x)`, the part's `to_s`. -/
def Part.toS (dtoa : ℚ → Dtoa) : Part → List UInt8
  | .int n => intToS n
  | .rat q => ratToS q
  | .flo x => floToS dtoa x

/-- `f_abs(x)`: `Integer#abs`, `Rational#abs`, `Float#abs`, which clears the sign bit. -/
def Part.abs : Part → Part
  | .int n => .int |n|
  | .rat q => .rat |q|
  | .flo x => .flo { x with neg := false }

/-- `f_signbit(x)`: the sign bit of a Float, `f_negative_p` otherwise. -/
def Part.signbit : Part → Bool
  | .int n => decide (n < 0)
  | .rat q => decide (q < 0)
  | .flo x => x.neg

/-- `nucomp_to_s(self)`, `f_format(self, rb_String)`, on the real and imaginary parts. -/
def nucompToS (dtoa : ℚ → Dtoa) (z : Part × Part) : List UInt8 :=
  let s := z.1.toS dtoa ++ (if !z.2.signbit then '+'.toUInt8 else '-'.toUInt8) :: z.2.abs.toS dtoa
  (if (s.getLast?.map isdecimal).getD false then s else s ++ ['*'.toUInt8]) ++ ['i'.toUInt8]

/-! ## Numbers that `read_rat_nos` reads whole -/

/-- A number as the printers write it: digits, then an optional fraction, an optional exponent
with its sign, and an optional denominator. -/
structure NumTok where
  int : List UInt8
  frac : Option (List UInt8)
  exp : Option (UInt8 × List UInt8)
  den : Option (List UInt8)

/-- `.` and the digits of a fraction. -/
def fracText : Option (List UInt8) → List UInt8
  | some f => '.'.toUInt8 :: f
  | none => []

/-- `e`, a sign and the digits of an exponent. -/
def expText : Option (UInt8 × List UInt8) → List UInt8
  | some (sg, e) => 'e'.toUInt8 :: sg :: e
  | none => []

/-- `/` and the digits of a denominator. -/
def denText : Option (List UInt8) → List UInt8
  | some d => '/'.toUInt8 :: d
  | none => []

/-- The bytes of the number. -/
def NumTok.text (t : NumTok) : List UInt8 :=
  t.int ++ (fracText t.frac ++ (expText t.exp ++ denText t.den))

/-- Every group of digits of the number is a group of digits, and the exponent's sign a sign. -/
structure NumTok.Ok (t : NumTok) : Prop where
  int : Digits t.int
  frac : ∀ f ∈ t.frac, Digits f
  exp : ∀ e ∈ t.exp, issign e.1 = true ∧ Digits e.2
  den : ∀ d ∈ t.den, Digits d

/-- A byte at which `read_rat_nos` stops: no digit, underscore, point, exponent letter or `/`. -/
def Stops (c : UInt8) : Prop :=
  isdecimal c = false ∧ c ≠ '_'.toUInt8 ∧ c ≠ '.'.toUInt8 ∧ islettere c = false ∧ c ≠ '/'.toUInt8

instance : DecidablePred Stops := fun _ => inferInstanceAs (Decidable (_ ∧ _ ∧ _ ∧ _ ∧ _))

section Reading

variable {s : List UInt8} {p : ℕ}

theorem peek_eq_headD (s : List UInt8) (p : ℕ) : peek s p = (s.drop p).headD 0 := by
  rw [peek, List.getD_eq_getElem?_getD, ← List.head?_drop, List.headD_eq_head?_getD]

theorem peek_of_drop {c : UInt8} {l : List UInt8} (h : s.drop p = c :: l) : peek s p = c := by
  rw [peek_eq_headD, h]
  rfl

theorem drop_of_drop_append {l rest : List UInt8} (h : s.drop p = l ++ rest) :
    s.drop (p + l.length) = rest := by
  rw [← List.drop_drop, h, List.drop_left]

theorem drop_succ_of_drop {c : UInt8} {l : List UInt8} (h : s.drop p = c :: l) :
    s.drop (p + 1) = l :=
  drop_of_drop_append (l := [c]) h

variable (strict : Bool)

/-- **`read_digits`' loop copies a run of digits** and stops at the byte after it. -/
theorem digitsLoop_append {ds rest : List UInt8} (hd : ∀ c ∈ ds, isdecimal c = true)
    (hstop : isdecimal (rest.headD 0) = false ∧ rest.headD 0 ≠ '_'.toUInt8) (us : Bool) (r : Rd) :
    digitsLoop strict (ds ++ rest) us r =
      (true, if ds = [] then us else false, ⟨r.pos + ds.length, r.buf ++ ds⟩) := by
  induction ds generalizing us r with
  | nil =>
    cases rest with
    | nil => simp [digitsLoop]
    | cons c t =>
      obtain ⟨h1, h2⟩ := hstop
      simp only [List.headD_cons] at h1 h2
      simp [digitsLoop, h1, h2]
  | cons c ds ih =>
    have hc : isdecimal c = true := hd c List.mem_cons_self
    rw [List.cons_append, digitsLoop, if_pos hc, ih (fun c' h => hd c' (List.mem_cons_of_mem _ h))]
    simp only [Rd.copy, List.length_cons, reduceCtorEq, if_false, List.append_assoc,
      List.singleton_append]
    split_ifs <;> simp [Nat.add_assoc, Nat.add_comm 1]

/-- **`read_digits` reads a group of digits** and the byte after it is no digit or underscore. -/
theorem readDigits_append {r : Rd} {ds rest : List UInt8} (hs : s.drop r.pos = ds ++ rest)
    (hd : Digits ds) (hstop : isdecimal (rest.headD 0) = false ∧ rest.headD 0 ≠ '_'.toUInt8) :
    readDigits s strict r = (true, ⟨r.pos + ds.length, r.buf ++ ds⟩) := by
  obtain ⟨hne, hdec⟩ := hd
  obtain ⟨c, t, rfl⟩ := List.exists_cons_of_ne_nil hne
  have hpeek : peek s r.pos = c := peek_of_drop hs
  unfold readDigits
  rw [hpeek, if_neg (by simp [hdec c List.mem_cons_self]), hs,
    digitsLoop_append strict hdec hstop]
  simp

/-- What follows an exponent: `/` or a stopping byte. -/
theorem headD_denText {d : Option (List UInt8)} {rest : List UInt8} (hstop : Stops (rest.headD 0)) :
    isdecimal ((denText d ++ rest).headD 0) = false ∧ (denText d ++ rest).headD 0 ≠ '_'.toUInt8 ∧
      islettere ((denText d ++ rest).headD 0) = false ∧ (denText d ++ rest).headD 0 ≠ '.'.toUInt8 := by
  cases d with
  | some d =>
    simp only [denText, List.cons_append, List.headD_cons]
    decide
  | none => exact ⟨hstop.1, hstop.2.1, hstop.2.2.2.1, hstop.2.2.1⟩

/-- What follows a fraction: `e`, `/` or a stopping byte. -/
theorem headD_expText {e : Option (UInt8 × List UInt8)} {d : Option (List UInt8)} {rest : List UInt8}
    (hstop : Stops (rest.headD 0)) :
    isdecimal ((expText e ++ (denText d ++ rest)).headD 0) = false ∧
      (expText e ++ (denText d ++ rest)).headD 0 ≠ '_'.toUInt8 ∧
      (expText e ++ (denText d ++ rest)).headD 0 ≠ '.'.toUInt8 := by
  cases e with
  | some e =>
    simp only [expText, List.cons_append, List.headD_cons]
    decide
  | none =>
    obtain ⟨h1, h2, -, h4⟩ := headD_denText (d := d) hstop
    exact ⟨h1, h2, h4⟩

/-- The exponent of a number: `read_num` copies `e`, the sign and the digits. -/
theorem readExp_append {r : Rd} {e : Option (UInt8 × List UInt8)} {d : Option (List UInt8)}
    {rest : List UInt8} (hs : s.drop r.pos = expText e ++ (denText d ++ rest))
    (he : ∀ x ∈ e, issign x.1 = true ∧ Digits x.2) (hstop : Stops (rest.headD 0)) :
    readExp s strict r = (true, ⟨r.pos + (expText e).length, r.buf ++ expText e⟩) := by
  obtain ⟨h1, h2, h3, -⟩ := headD_denText (d := d) hstop
  cases e with
  | none =>
    have hpeek : peek s r.pos = (denText d ++ rest).headD 0 := by rw [peek_eq_headD, hs]; rfl
    unfold readExp
    rw [hpeek, h3]
    simp [expText]
  | some x =>
    obtain ⟨sg, ds⟩ := x
    obtain ⟨hsg, hds⟩ := he (sg, ds) rfl
    simp only [expText, List.cons_append] at hs
    have hs1 := drop_succ_of_drop hs
    have hs2 := drop_succ_of_drop hs1
    unfold readExp
    rw [peek_of_drop hs, if_pos (by decide : islettere 'e'.toUInt8 = true)]
    have hsign : readSign s (r.copy 'e'.toUInt8) = (sg, ⟨r.pos + 1 + 1, r.buf ++ ['e'.toUInt8, sg]⟩) := by
      unfold readSign
      rw [show (r.copy 'e'.toUInt8).pos = r.pos + 1 from rfl, peek_of_drop hs1, if_pos hsg]
      simp [Rd.copy]
    rw [hsign, readDigits_append strict hs2 hds ⟨h1, h2⟩]
    simp [expText]
    omega

/-- The fraction and the exponent of a number. -/
theorem readFrac_append {r : Rd} {f : Option (List UInt8)} {e : Option (UInt8 × List UInt8)}
    {d : Option (List UInt8)} {rest : List UInt8}
    (hs : s.drop r.pos = fracText f ++ (expText e ++ (denText d ++ rest)))
    (hf : ∀ x ∈ f, Digits x) (he : ∀ x ∈ e, issign x.1 = true ∧ Digits x.2)
    (hstop : Stops (rest.headD 0)) :
    readFrac s strict r =
      (true, ⟨r.pos + (fracText f ++ expText e).length, r.buf ++ (fracText f ++ expText e)⟩) := by
  obtain ⟨h1, h2, h3⟩ := headD_expText (e := e) (d := d) hstop
  cases f with
  | none =>
    have hpeek : peek s r.pos = (expText e ++ (denText d ++ rest)).headD 0 := by
      rw [peek_eq_headD, hs]; rfl
    unfold readFrac
    rw [hpeek, if_neg h3, readExp_append strict hs he hstop]
    simp [fracText]
  | some x =>
    simp only [fracText, List.cons_append] at hs
    have hs1 := drop_succ_of_drop hs
    unfold readFrac
    rw [peek_of_drop hs, if_pos rfl]
    have hdig := readDigits_append strict (r := r.copy '.'.toUInt8) hs1 (hf x rfl) ⟨h1, h2⟩
    rw [hdig]
    dsimp only
    rw [readExp_append strict (drop_of_drop_append (by simpa [Rd.copy] using hs1)) he hstop]
    simp [fracText, Rd.copy, Nat.add_assoc, Nat.add_comm 1]

/-- **`read_num` reads a printed number** up to its denominator. -/
theorem readNum_append {r : Rd} {t : NumTok} {rest : List UInt8} (ht : t.Ok)
    (hs : s.drop r.pos = t.text ++ rest) (hstop : Stops (rest.headD 0)) :
    readNum s strict r = (true, ⟨r.pos + (t.int ++ (fracText t.frac ++ expText t.exp)).length,
      r.buf ++ (t.int ++ (fracText t.frac ++ expText t.exp))⟩) := by
  obtain ⟨c, l, hcl⟩ := List.exists_cons_of_ne_nil ht.int.1
  have hs' : s.drop r.pos = t.int ++ (fracText t.frac ++ (expText t.exp ++ (denText t.den ++ rest))) := by
    simpa [NumTok.text] using hs
  have hpeek : peek s r.pos = c := peek_of_drop (by rw [hs', hcl]; rfl)
  have hc : isdecimal c = true := ht.int.2 c (by rw [hcl]; exact List.mem_cons_self)
  -- what follows the integer digits: `.`, `e`, `/` or a stopping byte
  have hnext : isdecimal ((fracText t.frac ++ (expText t.exp ++ (denText t.den ++ rest))).headD 0) = false ∧
      (fracText t.frac ++ (expText t.exp ++ (denText t.den ++ rest))).headD 0 ≠ '_'.toUInt8 := by
    cases t.frac with
    | some f =>
      simp only [fracText, List.cons_append, List.headD_cons]
      decide
    | none =>
      obtain ⟨h1, h2, -⟩ := headD_expText (e := t.exp) (d := t.den) hstop
      exact ⟨h1, h2⟩
  unfold readNum
  rw [hpeek, if_pos (by rintro rfl; exact absurd hc (by decide)), readDigits_append strict hs' ht.int hnext]
  dsimp only
  rw [readFrac_append strict (drop_of_drop_append hs') ht.frac ht.exp hstop]
  simp [Nat.add_assoc]

/-- **`read_rat_nos` reads a printed number whole**, denominator included, and copies it. -/
theorem readRatNos_append {r : Rd} {t : NumTok} {rest : List UInt8} (ht : t.Ok)
    (hs : s.drop r.pos = t.text ++ rest) (hstop : Stops (rest.headD 0)) :
    readRatNos s strict r = (true, ⟨r.pos + t.text.length, r.buf ++ t.text⟩) := by
  have hs' : s.drop r.pos = (t.int ++ (fracText t.frac ++ expText t.exp)) ++ (denText t.den ++ rest) := by
    simpa [NumTok.text] using hs
  have hden := drop_of_drop_append hs'
  unfold readRatNos
  rw [readNum_append strict ht hs hstop]
  dsimp only
  cases hd : t.den with
  | none =>
    rw [hd] at hden
    have hpeek : peek s (r.pos + (t.int ++ (fracText t.frac ++ expText t.exp)).length) = rest.headD 0 := by
      rw [peek_eq_headD, hden]; rfl
    rw [hpeek, if_neg hstop.2.2.2.2]
    simp [NumTok.text, hd, denText]
  | some dd =>
    rw [hd] at hden
    simp only [denText, List.cons_append] at hden
    rw [peek_of_drop hden, if_pos rfl]
    have hdig := readDigits_append strict
      (r := Rd.copy ⟨r.pos + (t.int ++ (fracText t.frac ++ expText t.exp)).length,
        r.buf ++ (t.int ++ (fracText t.frac ++ expText t.exp))⟩ '/'.toUInt8)
      (drop_succ_of_drop hden) (ht.den dd hd) ⟨hstop.1, hstop.2.1⟩
    rw [hdig]
    simp [NumTok.text, hd, denText, Rd.copy, Nat.add_assoc, Nat.add_comm 1]

end Reading

/-! ## Every part prints as a sign and a number -/

/-- `-` when the sign bit is set, nothing otherwise. -/
def signText (neg : Bool) : List UInt8 := if neg then ['-'.toUInt8] else []

section Shapes

theorem Digits.ne_of_not_decimal {l : List UInt8} (h : Digits l) {c : UInt8}
    (hc : isdecimal c = false) : c ∉ l := fun hm => by
  rw [h.2 c hm] at hc
  cases hc

theorem Digits.append {l l' : List UInt8} (h : Digits l) (h' : ∀ c ∈ l', isdecimal c = true) :
    Digits (l ++ l') :=
  ⟨by simp [h.1], fun c hc => (List.mem_append.mp hc).elim (h.2 c) (h' c)⟩

theorem digits_zero : Digits ['0'.toUInt8] :=
  ⟨by simp, fun c hc => by rw [List.mem_singleton.mp hc]; rfl⟩

theorem zeros_decimal (n : ℕ) : ∀ c ∈ List.replicate n '0'.toUInt8, isdecimal c = true := by
  intro c hc
  rw [List.eq_of_mem_replicate hc]
  rfl

theorem intToS_eq (n : ℤ) : intToS n = signText (decide (n < 0)) ++ decDigits n.natAbs := by
  simp [intToS, signText]

/-- `Rational#to_s`: `-` for a negative rational, then its numerator's digits, `/`, and its
denominator's. -/
theorem ratToS_eq (q : ℚ) :
    ratToS q = signText (decide (q < 0)) ++ (decDigits q.num.natAbs ++ '/'.toUInt8 :: decDigits q.den) := by
  simp [ratToS, intToS, signText, Rat.num_neg]

/-- `e%+03d`: the exponent's sign and at least two digits. -/
theorem expSuffix_eq (k : ℤ) : ∃ sg ds, expSuffix k = expText (some (sg, ds)) ∧ issign sg = true ∧
    Digits ds := by
  refine ⟨if k < 0 then '-'.toUInt8 else '+'.toUInt8,
    (if k.natAbs < 10 then ['0'.toUInt8] else []) ++ decDigits k.natAbs, rfl, by split_ifs <;> rfl, ?_⟩
  split_ifs
  · exact ⟨by simp, fun c hc => (List.mem_append.mp hc).elim
      (fun h => by rw [List.mem_singleton.mp h]; rfl) ((decDigits_digits _).2 c)⟩
  · simpa using decDigits_digits k.natAbs

/-- The `exp:` form is a number with a fraction and an exponent. -/
theorem floExp_tok {buf : List UInt8} (hb : Digits buf) (decpt : ℤ) :
    ∃ t : NumTok, t.Ok ∧ floExp buf decpt = t.text ∧ t.frac.isSome ∧ t.den = none := by
  obtain ⟨sg, ds, he, hsg, hds⟩ := expSuffix_eq (decpt - 1)
  match buf, hb with
  | d :: d' :: rest, hb =>
    refine ⟨⟨[d], some (d' :: rest), some (sg, ds), none⟩, ⟨?_, ?_, ?_, nofun⟩, ?_, rfl, rfl⟩
    · exact ⟨by simp, fun c hc => hb.2 c (by simp_all)⟩
    · rintro f ⟨⟩
      exact ⟨by simp, fun c hc => hb.2 c (List.mem_cons_of_mem _ hc)⟩
    · rintro e ⟨⟩
      exact ⟨hsg, hds⟩
    · simp [floExp, he, NumTok.text, fracText, denText]
  | [d], hb =>
    refine ⟨⟨[d], some ['0'.toUInt8], some (sg, ds), none⟩, ⟨hb, ?_, ?_, nofun⟩, ?_, rfl, rfl⟩
    · rintro f ⟨⟩
      exact digits_zero
    · rintro e ⟨⟩
      exact ⟨hsg, hds⟩
    · simp [floExp, he, NumTok.text, fracText, denText]

/-- **`flo_to_s` prints a number with a fraction**: each branch puts a `.` between two groups of
digits, and the `exp:` form adds an exponent. -/
theorem floBody_tok {buf : List UInt8} (hb : Digits buf) (decpt : ℤ) :
    ∃ t : NumTok, t.Ok ∧ floBody buf decpt = t.text ∧ t.frac.isSome ∧ t.den = none := by
  have hlen : 0 < buf.length := List.length_pos_of_ne_nil hb.1
  unfold floBody
  split_ifs with h1 h2 h3 h4
  · -- a point inside the digits
    refine ⟨⟨buf.take decpt.toNat, some (buf.drop decpt.toNat), none, none⟩,
      ⟨⟨?_, fun c hc => hb.2 c (List.mem_of_mem_take hc)⟩, ?_, nofun, nofun⟩, ?_, rfl, rfl⟩
    · simp only [ne_eq, List.take_eq_nil_iff, not_or]
      exact ⟨by omega, hb.1⟩
    · rintro f ⟨⟩
      refine ⟨?_, fun c hc => hb.2 c (List.mem_of_mem_drop hc)⟩
      simp only [ne_eq, List.drop_eq_nil_iff, not_le]
      omega
    · simp [NumTok.text, fracText, expText, denText]
  · -- zeros and `.0`
    refine ⟨⟨buf ++ List.replicate (decpt.toNat - buf.length) '0'.toUInt8, some ['0'.toUInt8], none,
      none⟩, ⟨hb.append (zeros_decimal _), ?_, nofun, nofun⟩, ?_, rfl, rfl⟩
    · rintro f ⟨⟩
      exact digits_zero
    · simp [NumTok.text, fracText, expText, denText]
  · exact floExp_tok hb decpt
  · -- `0.`, zeros, then the digits
    refine ⟨⟨['0'.toUInt8], some (List.replicate (-decpt).toNat '0'.toUInt8 ++ buf), none, none⟩,
      ⟨digits_zero, ?_, nofun, nofun⟩, ?_, rfl, rfl⟩
    · rintro f ⟨⟩
      exact ⟨by simp [hb.1], fun c hc => (List.mem_append.mp hc).elim (zeros_decimal _ c) (hb.2 c)⟩
    · simp [NumTok.text, fracText, expText, denText]
  · exact floExp_tok hb decpt

end Shapes

/-! ## `parse_comp` reads `to_s` back -/

section Bytes

variable {c : UInt8}

theorem isdecimal_iff : isdecimal c = true ↔ 48 ≤ c.toNat ∧ c.toNat ≤ 57 := by
  simp [isdecimal, asciiDigit, UInt8.le_iff_toNat_le]
  rfl

theorem ne_of_isdecimal {d : UInt8} (hc : isdecimal c = true) (hd : isdecimal d = false) : c ≠ d := by
  rintro rfl
  simp_all

/-- A digit is no space, sign, imaginary unit or `@`, and `str2num` finds no `.`, `e` or `E` in
it. -/
theorem isdecimal_not (hc : isdecimal c = true) :
    isSpace c = false ∧ issign c = false ∧ isimagunit c = false ∧ c ≠ '@'.toUInt8 ∧
      (c == '.'.toUInt8 || islettere c) = false := by
  have hne : ∀ d, isdecimal d = false → c ≠ d := fun _ => ne_of_isdecimal hc
  refine ⟨?_, ?_, ?_, hne _ (by decide), ?_⟩
  · -- the spaces are `' '` and the range from `'\t'` to `'\r'`, all below `'0'`
    have h1 : ' '.toUInt8.toNat = 32 := rfl
    have h2 : '\t'.toUInt8.toNat = 9 := rfl
    have h3 : '\r'.toUInt8.toNat = 13 := rfl
    have hn := isdecimal_iff.mp hc
    simp [isSpace, UInt8.le_iff_toNat_le, UInt8.ext_iff, h1, h2, h3]
    omega
  · simp only [issign, Bool.or_eq_false_iff, beq_eq_false_iff_ne]
    exact ⟨hne _ (by decide), hne _ (by decide)⟩
  · simp only [isimagunit, Bool.or_eq_false_iff, beq_eq_false_iff_ne]
    exact ⟨⟨⟨hne _ (by decide), hne _ (by decide)⟩, hne _ (by decide)⟩, hne _ (by decide)⟩
  · simp only [islettere, Bool.or_eq_false_iff, beq_eq_false_iff_ne]
    exact ⟨hne _ (by decide), hne _ (by decide), hne _ (by decide)⟩

theorem issign_cases (h : issign c = true) : c = '-'.toUInt8 ∨ c = '+'.toUInt8 := by
  simpa [issign] using h

/-- A sign is no imaginary unit or `@`, and `read_rat_nos` stops at it. -/
theorem issign_not (h : issign c = true) :
    isimagunit c = false ∧ c ≠ '@'.toUInt8 ∧ Stops c := by
  rcases issign_cases h with rfl | rfl <;> decide

end Bytes

section Parse

variable {N : Type} (conv : Conv N) {t t' : NumTok}

theorem NumTok.Ok.text_cons (ht : t.Ok) : ∃ d l, t.text = d :: l ∧ isdecimal d = true := by
  obtain ⟨d, l, hdl⟩ := List.exists_cons_of_ne_nil ht.int.1
  exact ⟨d, l ++ (fracText t.frac ++ (expText t.exp ++ denText t.den)), by simp [NumTok.text, hdl],
    ht.int.2 d (by simp [hdl])⟩

/-- The text of a number ends in a group of digits. -/
theorem NumTok.Ok.text_eq_append (ht : t.Ok) : ∃ X g, Digits g ∧ t.text = X ++ g := by
  cases hd : t.den with
  | some d =>
    exact ⟨t.int ++ fracText t.frac ++ expText t.exp ++ ['/'.toUInt8], d, ht.den d hd,
      by simp [NumTok.text, hd, denText]⟩
  | none =>
    cases he : t.exp with
    | some e =>
      exact ⟨t.int ++ fracText t.frac ++ ['e'.toUInt8, e.1], e.2, (ht.exp e he).2,
        by simp [NumTok.text, hd, he, denText, expText]⟩
    | none =>
      cases hf : t.frac with
      | some f =>
        exact ⟨t.int ++ ['.'.toUInt8], f, ht.frac f hf, by simp [NumTok.text, hd, he, hf, denText,
          expText, fracText]⟩
      | none => exact ⟨[], t.int, ht.int, by simp [NumTok.text, hd, he, hf, denText, expText, fracText]⟩

theorem Digits.getLast?_append {g : List UInt8} (h : Digits g) (X : List UInt8) :
    (((X ++ g).getLast?).map isdecimal).getD false = true := by
  rw [List.getLast?_append_of_ne_nil _ h.1, List.getLast?_eq_some_getLast h.1]
  exact h.2 _ (List.getLast_mem h.1)

/-- `skip_ws` stops at once before a byte that is no space. -/
theorem skipWs_of_peek {s : List UInt8} {p : ℕ} (h : isSpace (peek s p) = false) : skipWs s p = p := by
  rw [peek_eq_headD] at h
  unfold skipWs
  cases hs : s.drop p with
  | nil => simp
  | cons c l => simp_all

/-- The imaginary part after the real one: a sign, a number and `i`. -/
theorem readCompImag_append {s : List UInt8} {p : ℕ} {sg : UInt8} (num : N) (hsg : issign sg = true)
    (ht : t.Ok) (hs : s.drop p = sg :: (t.text ++ ['i'.toUInt8])) :
    readCompImag s conv true num p =
      (true, (num, str2num conv (sg :: t.text)), p + 1 + t.text.length + 1) := by
  obtain ⟨d, l, hdl, hd⟩ := ht.text_cons
  have hs1 := drop_succ_of_drop hs
  have hsign : readSign s ⟨p, []⟩ = (sg, ⟨p + 1, [sg]⟩) := by
    unfold readSign
    rw [peek_of_drop hs, if_pos hsg]
    rfl
  have hp1 : peek s (p + 1) = d := peek_of_drop (l := l ++ ['i'.toUInt8]) (by rw [hs1, hdl]; rfl)
  have hrat := readRatNos_append true (r := ⟨p + 1, [sg]⟩) ht hs1 (by decide)
  have hi : peek s (p + 1 + t.text.length) = 'i'.toUInt8 := peek_of_drop (drop_of_drop_append hs1)
  unfold readCompImag
  dsimp only
  rw [hsign]
  dsimp only
  rw [hp1, if_neg (by simp [(isdecimal_not hd).2.2.1]), hrat]
  dsimp only
  rw [hi, if_pos (by decide)]
  rfl

/-- **`read_comp` reads a printed complex**: the real part with its sign, then the imaginary
part's sign, number and `i`. -/
theorem readComp_append (neg : Bool) {sg : UInt8} (ht : t.Ok) (ht' : t'.Ok) (hsg : issign sg = true) :
    readComp (signText neg ++ (t.text ++ sg :: (t'.text ++ ['i'.toUInt8]))) conv true 0 =
      (true, (str2num conv (signText neg ++ t.text), str2num conv (sg :: t'.text)),
        (signText neg).length + t.text.length + 1 + t'.text.length + 1) := by
  set s := signText neg ++ (t.text ++ sg :: (t'.text ++ ['i'.toUInt8])) with hs
  obtain ⟨d, l, hdl, hd⟩ := ht.text_cons
  obtain ⟨hsgi, hsga, hsgs⟩ := issign_not hsg
  have hs0 : s.drop (signText neg).length = t.text ++ sg :: (t'.text ++ ['i'.toUInt8]) := by simp [hs]
  have hp0 : peek s (signText neg).length = d :=
    peek_of_drop (l := l ++ sg :: (t'.text ++ ['i'.toUInt8])) (by rw [hs0, hdl]; rfl)
  -- `read_sign` copies the `-` of a negative real part, and sees a digit otherwise
  have hsign : (readSign s ⟨0, []⟩).2 = ⟨(signText neg).length, signText neg⟩ := by
    unfold readSign
    dsimp only
    cases neg with
    | true =>
      rw [peek_of_drop (c := '-'.toUInt8) (l := t.text ++ sg :: (t'.text ++ ['i'.toUInt8]))
        (by simp [hs, signText]), if_pos (by decide)]
      rfl
    | false =>
      rw [peek_of_drop (c := d) (l := l ++ sg :: (t'.text ++ ['i'.toUInt8])) (by simp [hs, signText, hdl]),
        if_neg (by simp [(isdecimal_not hd).2.1])]
      rfl
  have hrat := readRatNos_append true (r := ⟨(signText neg).length, signText neg⟩) ht hs0 hsgs
  have hsg' := drop_of_drop_append hs0
  unfold readComp
  dsimp only
  rw [hsign]
  dsimp only
  rw [hp0, if_neg (by simp [(isdecimal_not hd).2.2.1]), hrat]
  dsimp only
  rw [peek_of_drop hsg', if_neg (by simp [hsgi]), if_neg hsga, if_pos hsg,
    readCompImag_append conv _ hsg ht' hsg']

/-- **`parse_comp` accepts a printed complex** in strict mode: the text is all read, and the NUL
follows it. -/
theorem parseComp_append (neg : Bool) {sg : UInt8} (ht : t.Ok) (ht' : t'.Ok) (hsg : issign sg = true) :
    parseComp (signText neg ++ (t.text ++ sg :: (t'.text ++ ['i'.toUInt8]))) conv true =
      (true, (str2num conv (signText neg ++ t.text), str2num conv (sg :: t'.text))) := by
  set s := signText neg ++ (t.text ++ sg :: (t'.text ++ ['i'.toUInt8])) with hs
  obtain ⟨d, l, hdl, hd⟩ := ht.text_cons
  have h0 : skipWs s 0 = 0 := by
    apply skipWs_of_peek
    cases neg with
    | true =>
      rw [peek_of_drop (c := '-'.toUInt8) (l := t.text ++ sg :: (t'.text ++ ['i'.toUInt8]))
        (by simp [hs, signText])]
      decide
    | false =>
      rw [peek_of_drop (c := d) (l := l ++ sg :: (t'.text ++ ['i'.toUInt8])) (by simp [hs, signText, hdl])]
      exact (isdecimal_not hd).1
  have hend : s.drop ((signText neg).length + t.text.length + 1 + t'.text.length + 1) = [] := by
    simp [hs]
    omega
  have hnul : peek s ((signText neg).length + t.text.length + 1 + t'.text.length + 1) = 0 := by
    rw [peek_eq_headD, hend]
    rfl
  unfold parseComp
  dsimp only
  rw [h0, readComp_append conv neg ht ht' hsg]
  dsimp only
  rw [skipWs_of_peek (by rw [hnul]; decide), hnul]
  rfl

end Parse

/-! ## The parts read back -/

section Parts

variable (dtoa : ℚ → Dtoa)

theorem Dtoa.take_digits (d : Dtoa) : Digits (d.digits.take (floBufSize - 1)) :=
  ⟨by simp [d.digits_ok.1, floBufSize, dblDig], fun c hc => d.digits_ok.2 c (List.mem_of_mem_take hc)⟩

/-- **Each part prints as its sign and a number** that `read_rat_nos` reads whole. -/
theorem Part.toS_tok (p : Part) : ∃ t : NumTok, t.Ok ∧ p.toS dtoa = signText p.signbit ++ t.text := by
  cases p with
  | int n =>
    refine ⟨⟨decDigits n.natAbs, none, none, none⟩, ⟨decDigits_digits _, nofun, nofun, nofun⟩, ?_⟩
    simp [Part.toS, Part.signbit, intToS_eq, NumTok.text, fracText, expText, denText]
  | rat q =>
    refine ⟨⟨decDigits q.num.natAbs, none, none, some (decDigits q.den)⟩,
      ⟨decDigits_digits _, nofun, nofun, ?_⟩, ?_⟩
    · rintro d ⟨⟩
      exact decDigits_digits _
    · simp [Part.toS, Part.signbit, ratToS_eq, NumTok.text, fracText, expText, denText]
  | flo x =>
    obtain ⟨t, ht, hbody, -, -⟩ := floBody_tok (dtoa x.mag).take_digits (dtoa x.mag).decpt
    exact ⟨t, ht, by rw [Part.toS, floToS, hbody]; rfl⟩

@[simp] theorem Part.signbit_abs (p : Part) : p.abs.signbit = false := by
  cases p <;> simp [Part.abs, Part.signbit, abs_nonneg]

theorem Part.abs_of_signbit {p : Part} (h : p.signbit = false) : p.abs = p := by
  cases p with
  | int n => simp_all [Part.abs, Part.signbit]
  | rat q => simp_all [Part.abs, Part.signbit]
  | flo x =>
    cases x
    simp_all [Part.abs, Part.signbit]

/-- A part whose sign bit is set prints as `-` and its absolute value. -/
theorem Part.toS_of_signbit {p : Part} (h : p.signbit = true) :
    p.toS dtoa = '-'.toUInt8 :: p.abs.toS dtoa := by
  cases p with
  | int n =>
    simp only [Part.signbit, decide_eq_true_eq] at h
    simp [Part.toS, Part.abs, intToS_eq, signText, h, not_lt.mpr (abs_nonneg n), Int.natAbs_abs]
  | rat q =>
    simp only [Part.signbit, decide_eq_true_eq] at h
    simp [Part.toS, Part.abs, ratToS_eq, signText, h, not_lt.mpr (abs_nonneg q),
      Rat.num_abs_eq_abs_num, Rat.den_abs_eq_den, Int.natAbs_abs]
  | flo x =>
    simp only [Part.signbit] at h
    simp [Part.toS, Part.abs, floToS, h]

/-- **`parse_comp` reads `Complex#to_s` back** in strict mode, over any conversions: it accepts
the text, and `str2num` gets the real part's text and the imaginary part's sign and text. The
imaginary part's text ends in a digit, so no `*` stands before the `i`. -/
theorem parseComp_nucompToS {N : Type} (conv : Conv N) (z : Part × Part) :
    parseComp (nucompToS dtoa z) conv true =
      (true, (str2num conv (z.1.toS dtoa),
        str2num conv ((if !z.2.signbit then '+'.toUInt8 else '-'.toUInt8) :: z.2.abs.toS dtoa))) := by
  obtain ⟨t, ht, h1⟩ := z.1.toS_tok dtoa
  obtain ⟨t', ht', h2⟩ := z.2.abs.toS_tok dtoa
  simp only [Part.signbit_abs, signText, Bool.false_eq_true, if_false, List.nil_append] at h2
  have hsg : issign (if !z.2.signbit then '+'.toUInt8 else '-'.toUInt8) = true := by
    split_ifs <;> decide
  obtain ⟨X, g, hg, hX⟩ := ht'.text_eq_append
  have hlast : (((z.1.toS dtoa ++ (if !z.2.signbit then '+'.toUInt8 else '-'.toUInt8) ::
      z.2.abs.toS dtoa).getLast?).map isdecimal).getD false = true := by
    rw [h2, hX, ← List.cons_append, ← List.append_assoc]
    exact hg.getLast?_append _
  unfold nucompToS
  dsimp only
  rw [if_pos hlast, h1, h2, List.append_assoc, List.append_assoc, List.cons_append,
    parseComp_append conv _ ht ht' hsg]

end Parts

/-! ## `str2num` chooses the conversion of each part's class -/

section Classes

variable {N : Type} (conv : Conv N)

theorem signText_mem {neg : Bool} {c : UInt8} (h : c ∈ signText neg) : c = '-'.toUInt8 := by
  cases neg <;> simp_all [signText]

/-- Without a denominator, a number has no `/`. -/
theorem NumTok.Ok.slash_not_mem {t : NumTok} (ht : t.Ok) (hd : t.den = none) : '/'.toUInt8 ∉ t.text := by
  have hdig : ∀ l, Digits l → '/'.toUInt8 ∉ l := fun l h => h.ne_of_not_decimal (by decide)
  simp only [NumTok.text, hd, denText, List.append_nil, List.mem_append, not_or]
  refine ⟨hdig _ ht.int, ?_, ?_⟩
  · cases hf : t.frac with
    | none => simp [fracText]
    | some f => exact List.not_mem_cons_of_ne_of_not_mem (by decide) (hdig f (ht.frac f hf))
  · cases he : t.exp with
    | none => simp [expText]
    | some e =>
      obtain ⟨hsg, hds⟩ := ht.exp e he
      refine List.not_mem_cons_of_ne_of_not_mem (by decide) (List.not_mem_cons_of_ne_of_not_mem ?_ (hdig _ hds))
      rcases issign_cases hsg with h | h <;> rw [h] <;> decide

/-- A sign and digits go to `rb_cstr_to_inum`. -/
theorem str2num_inum (neg : Bool) {ds : List UInt8} (hds : Digits ds) :
    str2num conv (signText neg ++ ds) = conv.cstrToInum (signText neg ++ ds) := by
  unfold str2num
  rw [if_neg, if_neg]
  · rw [Bool.not_eq_true, List.any_eq_false]
    intro c hc
    rcases List.mem_append.mp hc with h | h
    · rw [signText_mem h]
      decide
    · simp [(isdecimal_not (hds.2 c h)).2.2.2.2]
  · intro hm
    rcases List.mem_append.mp hm with h | h
    · exact absurd (signText_mem h) (by decide)
    · exact hds.ne_of_not_decimal (by decide) h

/-- A number with `/` goes to `rb_cstr_to_rat`. -/
theorem str2num_rat (pre ns ds : List UInt8) :
    str2num conv (pre ++ (ns ++ '/'.toUInt8 :: ds)) = conv.cstrToRat (pre ++ (ns ++ '/'.toUInt8 :: ds)) := by
  rw [str2num, if_pos (by simp)]

/-- A Float's text has `.` and no `/`, and goes to `rb_cstr_to_dbl`. -/
theorem str2num_floToS (dtoa : ℚ → Dtoa) (x : Flo) :
    str2num conv (floToS dtoa x) = conv.cstrToDbl (floToS dtoa x) := by
  obtain ⟨t, ht, hbody, hf, hd⟩ := floBody_tok (dtoa x.mag).take_digits (dtoa x.mag).decpt
  obtain ⟨f, hf⟩ := Option.isSome_iff_exists.mp hf
  have htext : floToS dtoa x = signText x.neg ++ t.text := by rw [floToS, hbody]; rfl
  rw [str2num, if_neg, if_pos]
  · rw [List.any_eq_true]
    exact ⟨'.'.toUInt8, by simp [htext, NumTok.text, hf, fracText], by decide⟩
  · rw [htext]
    intro hm
    rcases List.mem_append.mp hm with h | h
    · exact absurd (signText_mem h) (by decide)
    · exact ht.slash_not_mem hd h

end Classes

/-- What the round trip asks of the conversions that `str2num` calls: `rb_cstr_to_inum(s, 10, 0)`
and `rb_cstr_to_rat(s, 0)` read an optional `-` and decimal digits exactly and a `+` before a
digit as no sign, and `rb_cstr_to_dbl(s, 0)` reads a `+` before a number without a denominator
as no sign. No more is asked of `rb_cstr_to_dbl`: without `badcheck` it refuses a hex prefix and
reads `"0x1.8"` as 0, where `strtod` reads `"+0x1.8"` as 1.5. -/
structure Conv.Decimal (conv : Conv Part) : Prop where
  inum : ∀ neg ds, Digits ds →
    conv.cstrToInum (signText neg ++ ds) =
      .int (if neg then -(digitsValue 10 ds : ℤ) else digitsValue 10 ds)
  rat : ∀ neg ns ds, Digits ns → Digits ds → digitsValue 10 ds ≠ 0 →
    conv.cstrToRat (signText neg ++ (ns ++ '/'.toUInt8 :: ds)) =
      .rat ((if neg then -(digitsValue 10 ns : ℚ) else digitsValue 10 ns) / digitsValue 10 ds)
  plus : ∀ c l, isdecimal c = true →
    conv.cstrToInum ('+'.toUInt8 :: c :: l) = conv.cstrToInum (c :: l) ∧
      conv.cstrToRat ('+'.toUInt8 :: c :: l) = conv.cstrToRat (c :: l)
  plus_dbl : ∀ t : NumTok, t.Ok → t.den = none →
    conv.cstrToDbl ('+'.toUInt8 :: t.text) = conv.cstrToDbl t.text

section Values

variable (dtoa : ℚ → Dtoa) {conv : Conv Part}

/-- A number without `/` has no denominator. -/
theorem NumTok.den_eq_none {t : NumTok} (h : '/'.toUInt8 ∉ t.text) : t.den = none := by
  cases hd : t.den with
  | none => rfl
  | some d => exact absurd (by simp [NumTok.text, hd, denText]) h

/-- `str2num` reads a `+` before a number as no sign. -/
theorem str2num_plus (hconv : conv.Decimal) {t : NumTok} (ht : t.Ok) :
    str2num conv ('+'.toUInt8 :: t.text) = str2num conv t.text := by
  obtain ⟨c, l, hcl, hc⟩ := ht.text_cons
  obtain ⟨hinum, hrat⟩ := hconv.plus c l hc
  have hm : '/'.toUInt8 ∈ '+'.toUInt8 :: t.text ↔ '/'.toUInt8 ∈ t.text :=
    List.mem_cons.trans (or_iff_right (by decide))
  have ha : ('+'.toUInt8 :: t.text).any (fun c => c == '.'.toUInt8 || islettere c) =
      t.text.any (fun c => c == '.'.toUInt8 || islettere c) := by
    rw [List.any_cons, show ('+'.toUInt8 == '.'.toUInt8 || islettere '+'.toUInt8) = false by decide,
      Bool.false_or]
  simp only [str2num, hm, ha]
  split_ifs with hs
  · rw [hcl, hrat]
  · rw [hconv.plus_dbl t ht (NumTok.den_eq_none hs)]
  · rw [hcl, hinum]

/-- **`str2num` reads a part's text back** as the part itself. -/
theorem Part.str2num_toS (hconv : conv.Decimal) (p : Part)
    (hflo : ∀ x, p = .flo x → conv.cstrToDbl (floToS dtoa x) = .flo x) :
    str2num conv (p.toS dtoa) = p := by
  cases p with
  | int n =>
    rw [Part.toS, intToS_eq, str2num_inum conv _ (decDigits_digits _),
      hconv.inum _ _ (decDigits_digits _), digitsValue_decDigits, Int.natCast_natAbs]
    by_cases h : n < 0
    · simp [h, abs_of_neg h]
    · simp [h, abs_of_nonneg (not_lt.mp h)]
  | rat q =>
    have hden : digitsValue 10 (decDigits q.den) ≠ 0 := by
      rw [digitsValue_decDigits]
      exact q.den_ne_zero
    rw [Part.toS, ratToS_eq, str2num_rat,
      hconv.rat _ _ _ (decDigits_digits _) (decDigits_digits _) hden, digitsValue_decDigits,
      digitsValue_decDigits, Nat.cast_natAbs]
    -- the sign and the absolute value of the numerator give the numerator back
    have hnum : (if decide (q < 0) = true then -((|q.num| : ℤ) : ℚ) else ((|q.num| : ℤ) : ℚ)) = q.num := by
      by_cases h : q < 0
      · simp [h, abs_of_neg (Rat.num_neg.mpr h)]
      · simp [h, abs_of_nonneg (Rat.num_nonneg.mpr (not_lt.mp h))]
    rw [hnum, Rat.num_div_den]
  | flo x => rw [Part.toS, str2num_floToS, hflo x rfl]

/-- The imaginary part's sign and absolute value read back as the imaginary part. -/
theorem Part.str2num_sign_abs_toS (hconv : conv.Decimal) (p : Part)
    (hflo : ∀ x, p = .flo x → conv.cstrToDbl (floToS dtoa x) = .flo x) :
    str2num conv ((if !p.signbit then '+'.toUInt8 else '-'.toUInt8) :: p.abs.toS dtoa) = p := by
  cases h : p.signbit with
  | true =>
    rw [if_neg (by decide), ← p.toS_of_signbit dtoa h]
    exact p.str2num_toS dtoa hconv hflo
  | false =>
    -- a part without its sign bit prints as a number, and `+` before it is no sign
    obtain ⟨t, ht, hp⟩ := p.toS_tok dtoa
    have hp' : p.toS dtoa = t.text := by rw [hp, h]; rfl
    rw [if_pos (by decide), Part.abs_of_signbit h, hp', str2num_plus hconv ht, ← hp']
    exact p.str2num_toS dtoa hconv hflo

end Values

/-! ## The conversions of bignum.c -/

/-- The conversions `str2num` calls, with `rb_cstr_to_inum(s, 10, 0)` the model of bignum.c
(`rbCstrToInum`; its error arm is never taken, 10 being a valid radix and `badcheck` 0).
`rb_cstr_to_rat` and `rb_cstr_to_dbl` are given: the first reads its numbers through the end
pointer of `rb_int_parse_cstr`, which the model leaves out, and the model of the second reads a
rational, which has no sign of zero. -/
def rubyConv (cstrToRat cstrToDbl : List UInt8 → Part) (complexPolar : Part → Part → Part × Part) :
    Conv Part where
  cstrToRat := cstrToRat
  cstrToDbl := cstrToDbl
  cstrToInum b :=
    match rbCstrToInum b 10 false with
    | .ok n => .int n
    | .error _ => .int 0
  int2fix := .int
  complexPolar := complexPolar

theorem isDigitOf_ten_of_isdecimal {c : UInt8} (h : isdecimal c = true) : isDigitOf 10 c = true :=
  isDigitOf_ten_iff.mpr (isdecimal_iff.mp h)

/-- **With the model of `rb_cstr_to_inum`, `Conv.Decimal` asks only of the other two
conversions**: reading a signed fraction, and a `+` as no sign. -/
theorem rubyConv_decimal {cstrToRat cstrToDbl : List UInt8 → Part}
    (complexPolar : Part → Part → Part × Part)
    (hrat : ∀ neg ns ds, Digits ns → Digits ds → digitsValue 10 ds ≠ 0 →
      cstrToRat (signText neg ++ (ns ++ '/'.toUInt8 :: ds)) =
        .rat ((if neg then -(digitsValue 10 ns : ℚ) else digitsValue 10 ns) / digitsValue 10 ds))
    (hrat_plus : ∀ c l, isdecimal c = true →
      cstrToRat ('+'.toUInt8 :: c :: l) = cstrToRat (c :: l))
    (hdbl_plus : ∀ t : NumTok, t.Ok → t.den = none →
      cstrToDbl ('+'.toUInt8 :: t.text) = cstrToDbl t.text) :
    (rubyConv cstrToRat cstrToDbl complexPolar).Decimal where
  inum neg ds hds := by
    have h := rbCstrToInum_decimal neg hds.1 fun c hc => isDigitOf_ten_of_isdecimal (hds.2 c hc)
    simp only [rubyConv, signText, h]
    cases neg <;> rfl
  rat := hrat
  plus c l hc := ⟨by simp only [rubyConv, rbCstrToInum_plus (isDigitOf_ten_of_isdecimal hc)],
    hrat_plus c l hc⟩
  plus_dbl := hdbl_plus

/-- An optional sign, then decimal digits. -/
def signedDigits : List UInt8 → ℤ
  | c :: ds =>
    if c = '-'.toUInt8 then -(digitsValue 10 ds : ℤ)
    else if c = '+'.toUInt8 then digitsValue 10 ds
    else digitsValue 10 (c :: ds)
  | [] => 0

/-- A reader of a signed decimal fraction `n/d`, standing in for `rb_cstr_to_rat(s, 0)`. -/
def decimalRat (b : List UInt8) : Part :=
  .rat (signedDigits (b.takeWhile (· != '/'.toUInt8)) /
    digitsValue 10 ((b.dropWhile (· != '/'.toUInt8)).drop 1))

theorem signedDigits_signText (neg : Bool) {ds : List UInt8} (hds : Digits ds) :
    signedDigits (signText neg ++ ds) = if neg then -(digitsValue 10 ds : ℤ) else digitsValue 10 ds := by
  obtain ⟨c, l, rfl⟩ := List.exists_cons_of_ne_nil hds.1
  have hc := hds.2 c List.mem_cons_self
  cases neg with
  | true => simp [signText, signedDigits]
  | false =>
    have h1 : c ≠ '-'.toUInt8 := ne_of_isdecimal hc (by decide)
    have h2 : c ≠ '+'.toUInt8 := ne_of_isdecimal hc (by decide)
    simp [signText, signedDigits, h1, h2]

theorem signedDigits_plus {c : UInt8} (l : List UInt8) (hc : isdecimal c = true) :
    signedDigits ('+'.toUInt8 :: c :: l) = signedDigits (c :: l) := by
  have h1 : c ≠ '-'.toUInt8 := ne_of_isdecimal hc (by decide)
  have h2 : c ≠ '+'.toUInt8 := ne_of_isdecimal hc (by decide)
  rw [signedDigits, if_neg (by decide), if_pos rfl, signedDigits, if_neg h1, if_neg h2]

theorem decimalRat_signText (neg : Bool) (ns ds : List UInt8) (hns : Digits ns) (_ : Digits ds)
    (_ : digitsValue 10 ds ≠ 0) :
    decimalRat (signText neg ++ (ns ++ '/'.toUInt8 :: ds)) =
      .rat ((if neg then -(digitsValue 10 ns : ℚ) else digitsValue 10 ns) / digitsValue 10 ds) := by
  -- the sign and the numerator hold no `/`, so the split falls at the one `/`
  have hpre : ∀ a ∈ signText neg ++ ns, (a != '/'.toUInt8) = true := by
    intro a ha
    rcases List.mem_append.mp ha with h | h
    · rw [signText_mem h]
      decide
    · simpa using ne_of_isdecimal (hns.2 a h) (by decide)
  have hslash : ¬('/'.toUInt8 != '/'.toUInt8) = true := by decide
  simp only [decimalRat, ← List.append_assoc, List.takeWhile_append_of_pos hpre,
    List.dropWhile_append_of_pos hpre, List.takeWhile_cons_of_neg (p := fun x => x != '/'.toUInt8) hslash,
    List.dropWhile_cons_of_neg (p := fun x => x != '/'.toUInt8) hslash, List.append_nil]
  rw [signedDigits_signText neg hns]
  cases neg <;> simp

theorem decimalRat_plus (c : UInt8) (l : List UInt8) (hc : isdecimal c = true) :
    decimalRat ('+'.toUInt8 :: c :: l) = decimalRat (c :: l) := by
  have hcs : (c != '/'.toUInt8) = true := by simpa using ne_of_isdecimal hc (by decide)
  have hps : ('+'.toUInt8 != '/'.toUInt8) = true := by decide
  simp only [decimalRat, List.takeWhile_cons_of_pos (p := fun x => x != '/'.toUInt8) hps,
    List.takeWhile_cons_of_pos (p := fun x => x != '/'.toUInt8) hcs,
    List.dropWhile_cons_of_pos (p := fun x => x != '/'.toUInt8) hps, signedDigits_plus _ hc]

/-- **`Complex#to_s` round-trips through `Kernel#Complex`'s parser**: for a complex whose parts
are Integers, Rationals or finite Floats, strict `parse_comp` accepts its text and gives back each
part, its class, value and sign, where `rb_cstr_to_dbl` reads back each Float's `to_s`; and where
the strict parser accepts a string, `String#to_c` reads the same complex from it. -/
theorem nucomp_to_s_round_trip (dtoa : ℚ → Dtoa) (conv : Conv Part) (hconv : conv.Decimal)
    (z : Part × Part)
    (hflo : ∀ x, (z.1 = .flo x ∨ z.2 = .flo x) → conv.cstrToDbl (floToS dtoa x) = .flo x) :
    parseComp (nucompToS dtoa z) conv true = (true, z) ∧
      ∀ {N : Type} (conv' : Conv N) (s : List UInt8) (v : N × N),
        stringToCStrict conv' s = .ok v → stringToC conv' s = v := by
  refine ⟨?_, fun conv' s v h => stringToC_of_stringToCStrict s conv' h⟩
  rw [parseComp_nucompToS, z.1.str2num_toS dtoa hconv (fun x hx => hflo x (.inl hx)),
    z.2.str2num_sign_abs_toS dtoa hconv (fun x hx => hflo x (.inr hx))]

theorem nucomp_to_s_round_trip_int_rat :
    (rubyConv decimalRat (fun _ => .int 0) Prod.mk).Decimal ∧
      parseComp (nucompToS (fun _ => ⟨['0'.toUInt8], 1, digits_zero⟩) (.int (-3), .rat (-1 / 2)))
        (rubyConv decimalRat (fun _ => .int 0) Prod.mk) true = (true, (.int (-3), .rat (-1 / 2))) :=
  have hconv := rubyConv_decimal Prod.mk decimalRat_signText decimalRat_plus fun _ _ _ => rfl
  ⟨hconv, (nucomp_to_s_round_trip _ _ hconv _ (fun x hx => by rcases hx with h | h <;> cases h)).1⟩

end CRuby.Num
