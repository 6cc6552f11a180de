import CRuby.Str.Succ

/-!
# `String#succ` of an alphanumeric string is its odometer successor

On a string of ASCII digits and letters, `str_succ` works like an odometer whose wheels are
the string's positions: every position keeps its class (digit, lowercase, uppercase), the
rightmost one is incremented, a position at the last character of its class (`9`, `z`, `Z`)
wraps to the first (`0`, `a`, `A`) and carries to the left, and a carry out of the leftmost
position prepends `1`, `a` or `A` after that position's class (`str_succ_odometer`). So the
length grows exactly when every position is at the top of its class.

The proof has three layers:

* `enc_succ_alnum_char` on a character of a run of one class, with a character before the run
  and two after it that are not of the class (`ClassRun`): the next character when there is
  one, otherwise a wrap to the first character of the run, found by the walk back
  (`ClassRun.encSuccAlnumChar_eq`). Every ASCII-compatible encoding has such runs for the three
  classes (`classRun`);
* the odometer as a right fold (`odometer`, `odoSucc`);
* the first loop of `str_succ`, by induction on the positions still to its left, with the
  positions already passed as a parameter (`strSuccLoop_alnum`).

Read as a numeral in mixed radix (10 for a digit position, 26 for a letter position), the
string's successor denotes the next number (`strSucc_value`).
-/

namespace CRuby.Str

/-! ## Byte arithmetic -/

theorem toNat_add_one {c : UInt8} (h : c.toNat < 255) : (c + 1).toNat = c.toNat + 1 := by
  rw [UInt8.toNat_add, UInt8.toNat_one]
  omega

theorem toNat_sub_one {c : UInt8} (h : c.toNat ≠ 0) : (c - 1).toNat = c.toNat - 1 := by
  rw [UInt8.toNat_sub_of_le _ _ (UInt8.le_iff_toNat_le.mpr (by rw [UInt8.toNat_one]; omega)),
    UInt8.toNat_one]

/-! ## Neighbours of a character -/

section Neighbor

variable {enc : SbEncoding}

theorem encSuccChar_of_isChar {p : UInt8} (hp : p.toNat < 255) (hc : enc.isChar (p + 1)) :
    encSuccChar enc p = (.found, p + 1) := by
  have hne : p ≠ 0xff := fun h => by rw [h] at hp; exact absurd hp (by decide)
  simp [encSuccChar, encSuccCharLoop, hne, hc]

theorem encPredChar_of_isChar {p : UInt8} (hp : p.toNat ≠ 0) (hc : enc.isChar (p - 1)) :
    encPredChar enc p = (.found, p - 1) := by
  have hne : p ≠ 0 := fun h => by rw [h] at hp; exact hp rfl
  simp [encPredChar, encPredCharLoop, hne, hc]

end Neighbor

/-! ## A run of one class -/

/-- The characters `lo .. hi` of an encoding are of the class `ct`, the character before them
and the two after them are not, and all of these are characters: what `enc_succ_alnum_char`
needs to step inside the run and to wrap at its end. -/
structure ClassRun (enc : SbEncoding) (ct : Ctype) (lo hi : UInt8) : Prop where
  lo_pos : 0 < lo.toNat
  lo_lt_hi : lo.toNat < hi.toNat
  hi_lt : hi.toNat + 2 < 256
  isChar : ∀ b : UInt8, lo.toNat ≤ b.toNat + 1 → b.toNat ≤ hi.toNat + 2 → enc.isChar b = true
  mem : ∀ b : UInt8, lo.toNat ≤ b.toNat → b.toNat ≤ hi.toNat → enc.isCtype ct b = true
  below : enc.isCtype ct (lo - 1) = false
  above1 : enc.isCtype ct (hi + 1) = false
  above2 : enc.isCtype ct (hi + 1 + 1) = false

namespace ClassRun

variable {enc : SbEncoding} {ct : Ctype} {lo hi : UInt8} (R : ClassRun enc ct lo hi)
include R

/-- Inside the run, the first try finds the next character. -/
theorem succTries_lt {c : UInt8} (h1 : lo.toNat ≤ c.toNat) (h2 : c.toNat < hi.toNat) (n : ℕ) :
    succTries enc ct (n + 1) c = some (c + 1) := by
  have hc1 : (c + 1).toNat = c.toNat + 1 := toNat_add_one (by have := R.hi_lt; omega)
  have hnext : encSuccChar enc c = (.found, c + 1) :=
    encSuccChar_of_isChar (by have := R.hi_lt; omega) (R.isChar _ (by omega) (by omega))
  simp [succTries, hnext, R.mem (c + 1) (by omega) (by omega)]

/-- At the end of the run, neither of the two tries finds a character of the class. -/
theorem succTries_hi : succTries enc ct 2 hi = none := by
  have h1 : (hi + 1).toNat = hi.toNat + 1 := toNat_add_one (by have := R.hi_lt; omega)
  have h2 : (hi + 1 + 1).toNat = hi.toNat + 2 := by
    rw [toNat_add_one (by have := R.hi_lt; omega), h1]
  have hnext1 : encSuccChar enc hi = (.found, hi + 1) :=
    encSuccChar_of_isChar (by have := R.hi_lt; omega)
      (R.isChar _ (by have := R.lo_lt_hi; omega) (by omega))
  have hnext2 : encSuccChar enc (hi + 1) = (.found, hi + 1 + 1) :=
    encSuccChar_of_isChar (by have := R.hi_lt; omega)
      (R.isChar _ (by have := R.lo_lt_hi; omega) (by omega))
  simp [succTries, hnext1, hnext2, R.above1, R.above2]

/-- The walk back from the `n`-th character of the run reaches its first character after `n`
steps. The induction is on `n`; each step stays inside the run until the character before
it. -/
theorem predRun_eq : ∀ (n : ℕ) (c : UInt8) (range fuel : ℕ), c.toNat = lo.toNat + n →
    c.toNat ≤ hi.toNat → n < fuel → predRun enc ct fuel c range = (lo, range + n) := by
  intro n
  induction n with
  | zero =>
    intro c range fuel hc _ hfuel
    obtain ⟨fuel, rfl⟩ : ∃ f, fuel = f + 1 := ⟨fuel - 1, by omega⟩
    have hlo : c = lo := UInt8.toNat_inj.mp (by omega)
    subst hlo
    have hprev : encPredChar enc c = (.found, c - 1) :=
      encPredChar_of_isChar (by have := R.lo_pos; omega)
        (R.isChar _ (by rw [toNat_sub_one (by have := R.lo_pos; omega)]; omega)
          (by rw [toNat_sub_one (by have := R.lo_pos; omega)]; omega))
    simp [predRun, hprev, R.below]
  | succ n ih =>
    intro c range fuel hc hhi hfuel
    obtain ⟨fuel, rfl⟩ : ∃ f, fuel = f + 1 := ⟨fuel - 1, by omega⟩
    have hc1 : (c - 1).toNat = lo.toNat + n := by rw [toNat_sub_one (by omega)]; omega
    have hprev : encPredChar enc c = (.found, c - 1) :=
      encPredChar_of_isChar (by omega)
        (R.isChar _ (by omega) (by have := R.lo_lt_hi; have := R.hi_lt; omega))
    have hmem : enc.isCtype ct (c - 1) = true := R.mem _ (by omega) (by omega)
    simp only [predRun, hprev, hmem, and_self, if_true]
    rw [ih (c - 1) (range + 1) fuel hc1 (by omega) (by omega)]
    congr 1
    omega

/-- **`enc_succ_alnum_char` on a run.** A character of the run that is not its last becomes
the next one; the last wraps to the first, which is also the carry, or for digits the carry is
the character after it. -/
theorem encSuccAlnumChar_eq {c : UInt8} (hsel : enc.alnumCtype c = some ct)
    (h1 : lo.toNat ≤ c.toNat) (h2 : c.toNat ≤ hi.toNat) (carry : UInt8) :
    encSuccAlnumChar enc c carry =
      if c = hi then (.wrapped, lo, if ct = .digit then lo + 1 else lo)
      else (.found, c + 1, carry) := by
  by_cases hhi : c = hi
  · subst hhi
    have hrun : predRun enc ct 256 c 1 = (lo, 1 + (c.toNat - lo.toNat)) :=
      R.predRun_eq _ c 1 256 (by omega) le_rfl (by have := c.toNat_lt; omega)
    have hlo1 : (lo + 1).toNat = lo.toNat + 1 :=
      toNat_add_one (by have := R.lo_lt_hi; have := R.hi_lt; omega)
    have hcarry : encSuccChar enc lo = (.found, lo + 1) :=
      encSuccChar_of_isChar (by have := R.lo_lt_hi; have := R.hi_lt; omega)
        (R.isChar _ (by omega) (by have := R.lo_lt_hi; omega))
    have hrange : 1 + (c.toNat - lo.toNat) ≠ 1 := by have := R.lo_lt_hi; omega
    simp only [encSuccAlnumChar, hsel, maxGaps, R.succTries_hi, hrun, hrange, if_false, if_true]
    cases ct with
    | digit => simp [hcarry]
    | alpha => simp
  · have hlt : c.toNat < hi.toNat := by
      have : c.toNat ≠ hi.toNat := fun h => hhi (UInt8.toNat_inj.mp h)
      omega
    simp [encSuccAlnumChar, hsel, maxGaps, R.succTries_lt h1 hlt, hhi]

end ClassRun

/-! ## The classes of `[0-9a-zA-Z]` -/

/-- The three classes of an alphanumeric ASCII character. -/
inductive AlnumClass
  | digit
  | lower
  | upper
  deriving DecidableEq, Repr

namespace AlnumClass

/-- The first character of the class. -/
def first : AlnumClass → UInt8
  | digit => '0'.toUInt8
  | lower => 'a'.toUInt8
  | upper => 'A'.toUInt8

/-- The last character of the class. -/
def last : AlnumClass → UInt8
  | digit => '9'.toUInt8
  | lower => 'z'.toUInt8
  | upper => 'Z'.toUInt8

/-- The ctype `enc_succ_alnum_char` finds for the class. -/
def ctype : AlnumClass → Ctype
  | digit => .digit
  | _ => .alpha

/-- The character that a carry out of a position of the class prepends. -/
def carry : AlnumClass → UInt8
  | digit => '1'.toUInt8
  | lower => 'a'.toUInt8
  | upper => 'A'.toUInt8

end AlnumClass

/-- The class of an ASCII alphanumeric character. -/
def alnumClass (c : UInt8) : Option AlnumClass :=
  if '0'.toUInt8 ≤ c ∧ c ≤ '9'.toUInt8 then some .digit
  else if 'a'.toUInt8 ≤ c ∧ c ≤ 'z'.toUInt8 then some .lower
  else if 'A'.toUInt8 ≤ c ∧ c ≤ 'Z'.toUInt8 then some .upper
  else none

theorem bounds_of_alnumClass {c : UInt8} {k : AlnumClass} (h : alnumClass c = some k) :
    k.first.toNat ≤ c.toNat ∧ c.toNat ≤ k.last.toNat := by
  simp only [alnumClass, UInt8.le_iff_toNat_le] at h
  split_ifs at h with h1 h2 h3 <;> cases h
  · exact h1
  · exact h2
  · exact h3

/-- An encoding that agrees with ASCII on the bytes below `0x80`: they are characters, and its
digits and letters among them are ASCII's. -/
structure SbEncoding.AsciiCompatible (enc : SbEncoding) : Prop where
  isChar : ∀ b : UInt8, b.toNat < 0x80 → enc.isChar b = true
  isDigit : ∀ b : UInt8, b.toNat < 0x80 → enc.isDigit b = asciiDigit b
  isAlpha : ∀ b : UInt8, b.toNat < 0x80 → enc.isAlpha b = asciiAlpha b

theorem usAscii_asciiCompatible : usAscii.AsciiCompatible where
  isChar b h := by simp [usAscii, UInt8.lt_iff_toNat_lt, h]
  isDigit _ _ := rfl
  isAlpha _ _ := rfl

section Ascii

variable {enc : SbEncoding} (henc : enc.AsciiCompatible)
include henc

theorem isCtype_of_asciiCompatible (k : AlnumClass) {b : UInt8} (hb : b.toNat < 0x80) :
    enc.isCtype k.ctype b = if k = .digit then asciiDigit b else asciiAlpha b := by
  cases k <;> simp [AlnumClass.ctype, SbEncoding.isCtype, henc.isDigit b hb, henc.isAlpha b hb]

/-- Each class is a run of an ASCII-compatible encoding. -/
theorem classRun (k : AlnumClass) : ClassRun enc k.ctype k.first k.last := by
  have hlt (b : UInt8) (hb : b.toNat ≤ k.last.toNat + 2) : b.toNat < 0x80 := by
    cases k <;> simp [AlnumClass.last, Char.toUInt8] at hb <;> omega
  refine ⟨by cases k <;> decide, by cases k <;> decide, by cases k <;> decide,
    fun b _ hb => henc.isChar b (hlt b hb), fun b h1 h2 => ?_, ?_, ?_, ?_⟩
  · rw [isCtype_of_asciiCompatible henc k (hlt b (by omega))]
    cases k <;> simp [AlnumClass.first, AlnumClass.last, asciiDigit, asciiAlpha,
      UInt8.le_iff_toNat_le, Char.toUInt8] at h1 h2 ⊢ <;> omega
  · rw [isCtype_of_asciiCompatible henc k (by cases k <;> decide)]
    cases k <;> decide
  · rw [isCtype_of_asciiCompatible henc k (by cases k <;> decide)]
    cases k <;> decide
  · rw [isCtype_of_asciiCompatible henc k (by cases k <;> decide)]
    cases k <;> decide

theorem alnumCtype_of_alnumClass {c : UInt8} {k : AlnumClass} (h : alnumClass c = some k) :
    enc.alnumCtype c = some k.ctype := by
  have hb := bounds_of_alnumClass h
  have hc : c.toNat < 0x80 := by cases k <;> simp [AlnumClass.last, Char.toUInt8] at hb <;> omega
  simp only [SbEncoding.alnumCtype, henc.isDigit c hc, henc.isAlpha c hc]
  cases k <;>
    simp [AlnumClass.first, AlnumClass.last, AlnumClass.ctype, asciiDigit, asciiAlpha,
      UInt8.le_iff_toNat_le, Char.toUInt8] at hb ⊢
  case digit => exact hb
  -- a letter is not a digit
  all_goals rw [if_neg (by omega), if_pos (by omega)]

/-- **One position.** An alphanumeric character at the top of its class wraps to the first
character and gives the class's carry; any other becomes the next character. -/
theorem encSuccAlnumChar_alnum {c : UInt8} {k : AlnumClass} (h : alnumClass c = some k)
    (carry : UInt8) :
    encSuccAlnumChar enc c carry =
      if c = k.last then (.wrapped, k.first, k.carry) else (.found, c + 1, carry) := by
  have hb := bounds_of_alnumClass h
  rw [(classRun henc k).encSuccAlnumChar_eq (alnumCtype_of_alnumClass henc h) hb.1 hb.2]
  cases k <;> rfl

end Ascii

/-! ## The odometer -/

/-- One position of the odometer, given the carry from its right: with a carry, the last
character of a class wraps to the first and the carry goes on, any other character is
incremented and the carry stops. -/
def odoStep (c : UInt8) : List UInt8 × Bool → List UInt8 × Bool
  | (t, false) => (c :: t, false)
  | (t, true) =>
    match alnumClass c with
    | some k => if c = k.last then (k.first :: t, true) else ((c + 1) :: t, false)
    | none => (c :: t, true)

/-- The odometer turned by one at its rightmost position: the new positions, and whether a
carry leaves the leftmost one. -/
def odometer (s : List UInt8) : List UInt8 × Bool := s.foldr odoStep ([], true)

/-- The odometer successor of a string: a carry out of the leftmost position prepends the
carry character of that position's class. -/
def odoSucc (s : List UInt8) : List UInt8 :=
  match odometer s, s.head?.bind alnumClass with
  | (t, true), some k => k.carry :: t
  | (t, _), _ => t

/-- A character at the top of its class: `9`, `z` or `Z`. -/
def atTop (c : UInt8) : Bool := (alnumClass c).any fun k => c = k.last

theorem odoStep_append (c : UInt8) (u t : List UInt8) (b : Bool) :
    odoStep c (u ++ t, b) = ((odoStep c (u, b)).1 ++ t, (odoStep c (u, b)).2) := by
  cases b with
  | false => rfl
  | true =>
    simp only [odoStep]
    split
    · split <;> rfl
    · rfl

theorem length_odoStep (c : UInt8) (p : List UInt8 × Bool) :
    (odoStep c p).1.length = p.1.length + 1 := by
  obtain ⟨t, b⟩ := p
  cases b with
  | false => rfl
  | true =>
    simp only [odoStep]
    split
    · split <;> rfl
    · rfl

/-- The odometer only conses onto what its right part gave. -/
theorem foldr_odoStep_append (l t : List UInt8) (b : Bool) :
    l.foldr odoStep (t, b) =
      ((l.foldr odoStep ([], b)).1 ++ t, (l.foldr odoStep ([], b)).2) := by
  induction l with
  | nil => rfl
  | cons c l ih => rw [List.foldr_cons, List.foldr_cons, ih, odoStep_append]

/-- Without a carry, the positions stay as they are. -/
theorem foldr_odoStep_false (l t : List UInt8) : l.foldr odoStep (t, false) = (l ++ t, false) := by
  induction l with
  | nil => rfl
  | cons c l ih =>
    rw [List.foldr_cons, ih]
    rfl

theorem length_odometer (s : List UInt8) : (odometer s).1.length = s.length := by
  induction s with
  | nil => rfl
  | cons c s ih =>
    rw [odometer, List.foldr_cons, length_odoStep, ← odometer, ih, List.length_cons]

/-- A carry leaves the odometer exactly when every position is at the top of its class. -/
theorem odometer_snd {s : List UInt8} (hal : ∀ c ∈ s, (alnumClass c).isSome) :
    (odometer s).2 = s.all atTop := by
  induction s with
  | nil => rfl
  | cons c s ih =>
    obtain ⟨k, hk⟩ := Option.isSome_iff_exists.mp (hal c List.mem_cons_self)
    have ih' := ih (fun d hd => hal d (List.mem_cons_of_mem c hd))
    rw [odometer, List.foldr_cons, ← odometer, List.all_cons, ← ih']
    obtain ⟨t, b⟩ := odometer s
    cases b with
    | false => simp [odoStep]
    | true =>
      simp only [odoStep, hk, atTop, Option.any_some]
      split <;> simp_all

/-! ## What the odometer counts

A string of digits and letters is a numeral in mixed radix: a digit position counts to 10, a
letter position to 26, and a character is worth its distance from the first of its class. The
odometer adds one to that number and keeps the class of every position; a carry out of the
leftmost position is the number's overflow. -/

/-- The number of characters of a class. -/
def AlnumClass.radix : AlnumClass → ℕ
  | .digit => 10
  | _ => 26

/-- The value of a character as a digit of its position. -/
def alnumDigit (c : UInt8) : ℕ := ((alnumClass c).map fun k => c.toNat - k.first.toNat).getD 0

/-- The radix of a character's position. -/
def alnumRadix (c : UInt8) : ℕ := ((alnumClass c).map AlnumClass.radix).getD 1

/-- The number a string of digits and letters denotes, most significant position first. -/
def alnumValue : List UInt8 → ℕ
  | [] => 0
  | c :: s => alnumDigit c * (s.map alnumRadix).prod + alnumValue s

theorem alnumClass_of_bounds {c : UInt8} {k : AlnumClass} (h1 : k.first.toNat ≤ c.toNat)
    (h2 : c.toNat ≤ k.last.toNat) : alnumClass c = some k := by
  cases k <;>
    simp [alnumClass, AlnumClass.first, AlnumClass.last, UInt8.le_iff_toNat_le,
      Char.toUInt8] at h1 h2 ⊢ <;>
    split_ifs <;> first | rfl | omega

/-- Positions of the same classes have the same radices. -/
theorem map_alnumRadix_eq {s t : List UInt8} (h : t.map alnumClass = s.map alnumClass) :
    t.map alnumRadix = s.map alnumRadix := by
  have hr : alnumRadix = (fun o => (o.map AlnumClass.radix).getD 1) ∘ alnumClass := rfl
  rw [hr, ← List.map_map, ← List.map_map, h]

/-- **The odometer adds one.** It keeps the class of every position, and the new number plus
the overflow is the old number plus one. The induction follows the fold; each case is one
position, wrapping or not. -/
theorem odometer_value {s : List UInt8} (hal : ∀ c ∈ s, (alnumClass c).isSome) :
    (odometer s).1.map alnumClass = s.map alnumClass ∧
      alnumValue (odometer s).1 + (if (odometer s).2 then (s.map alnumRadix).prod else 0) =
        alnumValue s + 1 := by
  induction s with
  | nil => simp [odometer, alnumValue]
  | cons c s ih =>
    obtain ⟨k, hk⟩ := Option.isSome_iff_exists.mp (hal c List.mem_cons_self)
    obtain ⟨hcls, hval⟩ := ih (fun d hd => hal d (List.mem_cons_of_mem c hd))
    have hb := bounds_of_alnumClass hk
    rw [odometer, List.foldr_cons, ← odometer]
    rcases hodo : odometer s with ⟨t, b⟩
    rw [hodo] at hcls hval
    have hrad := map_alnumRadix_eq hcls
    cases b with
    | false =>
      simp only [odoStep, List.map_cons, hcls, alnumValue, hrad, Bool.false_eq_true, if_false,
        add_zero, true_and] at hval ⊢
      omega
    | true =>
      simp only [if_true] at hval
      by_cases htop : c = k.last
      · -- the position wraps to the first character of its class and carries
        have hfirst : alnumClass k.first = some k := alnumClass_of_bounds le_rfl
          (by cases k <;> decide)
        simp only [odoStep, hk, if_pos htop, List.map_cons, hcls, hfirst, alnumValue, hrad,
          alnumDigit, Option.map_some, Option.getD_some, alnumRadix, if_true, List.prod_cons,
          Nat.sub_self, zero_mul, zero_add, true_and]
        subst htop
        cases k <;> simp [AlnumClass.radix, AlnumClass.first, AlnumClass.last,
          Char.toUInt8] at hval ⊢ <;> omega
      · -- the position steps to the next character and the carry stops
        have hlt : c.toNat < k.last.toNat := by
          have : c.toNat ≠ k.last.toNat := fun h => htop (UInt8.toNat_inj.mp h)
          omega
        have hc1 : (c + 1).toNat = c.toNat + 1 := toNat_add_one (by
          have : k.last.toNat < 255 := by cases k <;> decide
          omega)
        have hnext : alnumClass (c + 1) = some k := alnumClass_of_bounds (by omega) (by omega)
        simp only [odoStep, hk, if_neg htop, List.map_cons, hcls, hnext, alnumValue, hrad,
          alnumDigit, Option.map_some, Option.getD_some, hc1, Bool.false_eq_true, if_false,
          add_zero, true_and]
        rw [show c.toNat + 1 - k.first.toNat = c.toNat - k.first.toNat + 1 by omega, add_mul,
          one_mul]
        omega

/-! ## The loops of `str_succ` -/

/-- The locals of `str_succ` after a carry out of the character at position 0, of class `k`. -/
def carryState (k : AlnumClass) : SuccState := ⟨.wrapped, some 0, true, k.carry, 0⟩

section Loop

variable {enc : SbEncoding} (henc : enc.AsciiCompatible)
include henc

/-- **The first loop on alphanumerics.** With the positions `pre` still to its left and `suf`
already passed, the loop turns the odometer on `pre`: it returns at the first position that
does not wrap, and otherwise ends with a carry out of position 0. The induction is on `pre`
from its right end, with `suf` growing by the wrapped character; the state keeps the loop out
of the `NEIGHBOR_NOT_CHAR` test. -/
theorem strSuccLoop_alnum (pre : List UInt8) (hal : ∀ c ∈ pre, (alnumClass c).isSome) :
    ∀ (suf : List UInt8) (st : SuccState), st.neighbor ≠ .notChar →
      strSuccLoop enc pre.length (pre ++ suf) st =
        match odometer pre, pre.head?.bind alnumClass with
        | (t, false), _ => .inl (t ++ suf)
        | (t, true), some k => .inr (t ++ suf, carryState k)
        | (t, true), none => .inr (t ++ suf, st) := by
  induction pre using List.reverseRecOn with
  | nil => intro suf st _; rfl
  | append_singleton l x ih =>
    intro suf st hst
    obtain ⟨k, hk⟩ := Option.isSome_iff_exists.mp (hal x (by simp))
    have hal' : ∀ c ∈ l, (alnumClass c).isSome := fun c hc => hal c (by simp [hc])
    have hchar : enc.isChar x = true := by
      have hb := bounds_of_alnumClass hk
      exact henc.isChar x (by cases k <;> simp [AlnumClass.last, Char.toUInt8] at hb <;> omega)
    have hodo : odometer (l ++ [x]) = l.foldr odoStep (odoStep x ([], true)) := by
      simp [odometer, List.foldr_append]
    -- one turn of the loop at position `l.length`, which holds `x`
    have hturn : strSuccLoop enc (l ++ [x]).length (l ++ [x] ++ suf) st =
        match encSuccAlnumChar enc x st.carry with
        | (.notChar, p, _) =>
          strSuccLoop enc l.length (l ++ p :: suf) { st with neighbor := .notChar }
        | (.found, p, _) => .inl (l ++ p :: suf)
        | (.wrapped, p, carry) =>
          strSuccLoop enc l.length (l ++ p :: suf)
            ⟨.wrapped, some l.length, true, carry, l.length⟩ := by
      rw [List.length_append, List.length_singleton, List.append_assoc, List.singleton_append]
      rcases hres : encSuccAlnumChar enc x st.carry with ⟨nb, p, carry⟩
      cases nb <;> simp [strSuccLoop, hst, hchar, hres]
    rw [hturn, encSuccAlnumChar_alnum henc hk, hodo]
    by_cases htop : x = k.last
    · have hwrap : odoStep x ([], true) = ([k.first], true) := by
        simp only [odoStep, hk, if_pos htop]
      rw [if_pos htop]
      dsimp only
      rw [ih hal' (k.first :: suf) _ (by simp), hwrap, foldr_odoStep_append, ← odometer]
      cases l with
      | nil => simp [odometer, hk, carryState]
      | cons c l =>
        obtain ⟨k', hk'⟩ := Option.isSome_iff_exists.mp (hal' c List.mem_cons_self)
        obtain ⟨t, b⟩ := odometer (c :: l)
        cases b <;> simp [hk']
    · have hinc : odoStep x ([], true) = ([x + 1], false) := by
        simp only [odoStep, hk, if_neg htop]
      rw [if_neg htop, hinc, foldr_odoStep_false]
      simp

/-- **`str_succ` on alphanumerics is the odometer successor.** -/
theorem strSucc_eq_odoSucc (s : List UInt8) (hs : s ≠ [])
    (hal : ∀ c ∈ s, (alnumClass c).isSome) : strSucc enc s = odoSucc s := by
  obtain ⟨c, s', rfl⟩ := List.exists_cons_of_ne_nil hs
  obtain ⟨k, hk⟩ := Option.isSome_iff_exists.mp (hal c List.mem_cons_self)
  have hloop := strSuccLoop_alnum henc (c :: s') hal [] .init (by decide)
  rw [List.append_nil] at hloop
  simp only [strSucc, reduceCtorEq, if_false, hloop, odoSucc]
  obtain ⟨t, b⟩ := odometer (c :: s')
  cases b <;> simp [hk, carryState]

/-- **`String#succ` adds one.** When some character of an alphanumeric string is not at the top
of its class, `str_succ` keeps the class of every position and adds one to the number the
string denotes in mixed radix. -/
theorem strSucc_value (s : List UInt8) (hs : s ≠ []) (hal : ∀ c ∈ s, (alnumClass c).isSome)
    (hnot : ∃ c ∈ s, atTop c = false) :
    (strSucc enc s).map alnumClass = s.map alnumClass ∧
      alnumValue (strSucc enc s) = alnumValue s + 1 := by
  have hcarry : (odometer s).2 = false := by
    obtain ⟨c, hc, htop⟩ := hnot
    rw [odometer_snd hal, List.all_eq_false]
    exact ⟨c, hc, by simp [htop]⟩
  have hsucc : strSucc enc s = (odometer s).1 := by
    rw [strSucc_eq_odoSucc henc s hs hal, odoSucc]
    rcases hodo : odometer s with ⟨t, b⟩
    rw [hodo] at hcarry
    subst hcarry
    rfl
  obtain ⟨hcls, hval⟩ := odometer_value hal
  simp only [hcarry, Bool.false_eq_true, if_false, add_zero] at hval
  rw [hsucc]
  exact ⟨hcls, hval⟩

end Loop

/-- The odometer successor is one longer than the string exactly when every position is at the
top of its class. -/
theorem length_odoSucc {s : List UInt8} (hs : s ≠ []) (hal : ∀ c ∈ s, (alnumClass c).isSome) :
    (odoSucc s).length = if s.all atTop then s.length + 1 else s.length := by
  obtain ⟨c, s', rfl⟩ := List.exists_cons_of_ne_nil hs
  obtain ⟨k, hk⟩ := Option.isSome_iff_exists.mp (hal c List.mem_cons_self)
  have hlen := length_odometer (c :: s')
  rw [← odometer_snd hal]
  simp only [odoSucc]
  rcases hodo : odometer (c :: s') with ⟨t, b⟩
  rw [hodo] at hlen
  cases b <;> simp [hk, hlen]

/-- **`String#succ` of a string of ASCII digits and letters.** In every ASCII-compatible
single-byte encoding, `str_succ` of a non-empty alphanumeric string is its odometer successor,
and it keeps the string's length unless every character is at the top of its class. -/
theorem str_succ_odometer (enc : SbEncoding) (henc : enc.AsciiCompatible) (s : List UInt8)
    (hs : s ≠ []) (hal : ∀ c ∈ s, (alnumClass c).isSome) :
    strSucc enc s = odoSucc s ∧ ((strSucc enc s).length = s.length ↔ ∃ c ∈ s, atTop c = false) := by
  have hsucc := strSucc_eq_odoSucc henc s hs hal
  refine ⟨hsucc, ?_⟩
  rw [hsucc, length_odoSucc hs hal]
  split
  · rename_i hall
    simp only [List.all_eq_true] at hall
    constructor
    · omega
    · rintro ⟨c, hc, htop⟩
      simp [hall c hc] at htop
  · rename_i hall
    simpa using hall

theorem str_succ_odometer_az :
    strSucc usAscii ['a'.toUInt8, 'z'.toUInt8] = odoSucc ['a'.toUInt8, 'z'.toUInt8] ∧
      ((strSucc usAscii ['a'.toUInt8, 'z'.toUInt8]).length = 2 ↔
        ∃ c ∈ ['a'.toUInt8, 'z'.toUInt8], atTop c = false) :=
  str_succ_odometer usAscii usAscii_asciiCompatible _ (List.cons_ne_nil _ _) (by
    intro c hc
    simp only [List.mem_cons, List.not_mem_nil, or_false] at hc
    rcases hc with rfl | rfl <;> rfl)

end CRuby.Str
