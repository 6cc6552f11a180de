import CRuby.Lib.TwosComplement
import Mathlib.Data.Int.Bitwise

/-!
# Fixnums and `Integer` values

`ruby.h` on an LP64 build, where `long` and `VALUE` are both 64 bits wide. An `Integer` is
either an immediate Fixnum, the word `(i << 1) | RUBY_FIXNUM_FLAG` of a `long` `i` in
`[FIXNUM_MIN, FIXNUM_MAX]`, or a Bignum on the heap. A Bignum is modelled here by the number it
holds.

* `fix2long`, `long2fix`, `fixableP`, `long2num`, `rbInt2big` and `bignorm` follow the macros
  and functions of the same names;
* `RInteger.val` is the number an `Integer` stands for, and `Represents r n` says that `r` is
  the canonical `Integer` for `n`: its value is `n`, and it is a Fixnum exactly when `n` is
  fixable. Canonical forms are unique (`Represents.unique`), so two pieces of code that both
  return the canonical `Integer` of a number return the same `VALUE`;
* `Fixnum` is a word with `FIXNUM_P`, the tag carried as a field.
-/

namespace CRuby.Num

open TwosComplement

/-- `VALUE`: a machine word. -/
abbrev Value : Type := BitVec 64

/-- `long` and `SIGNED_VALUE`: a machine word read as two's complement. -/
abbrev Long : Type := BitVec 64

/-- `RUBY_FIXNUM_FLAG` -/
def fixnumFlag : Value := 1

/-- `LONG_MAX` -/
def longMax : ℤ := 2 ^ 63 - 1

/-- `LONG_MIN` -/
def longMin : ℤ := -2 ^ 63

/-- `RUBY_FIXNUM_MAX`: `LONG_MAX >> 1`. -/
def fixnumMax : ℤ := longMax >>> 1

/-- `RUBY_FIXNUM_MIN`: `RSHIFT((long)LONG_MIN, 1)`. -/
def fixnumMin : ℤ := longMin >>> 1

/-- `RB_FIXNUM_P` -/
def fixnumP (f : Value) : Bool := (f &&& fixnumFlag) != 0

/-- `RB_FIX2LONG`: `RSHIFT((SIGNED_VALUE)x, 1)`, an arithmetic shift. -/
def fix2long (x : Value) : Long := x.sshiftRight 1

/-- `RB_INT2FIX`, which `LONG2FIX` is: `((VALUE)i) << 1 | RUBY_FIXNUM_FLAG`. -/
def long2fix (i : Long) : Value := (i <<< 1) ||| fixnumFlag

/-- `RB_POSFIXABLE` -/
def posfixableP (f : ℤ) : Bool := f < fixnumMax + 1

/-- `RB_NEGFIXABLE` -/
def negfixableP (f : ℤ) : Bool := f ≥ fixnumMin

/-- `RB_FIXABLE`, on the value of an integer of whichever C type it is applied to. -/
def fixableP (f : ℤ) : Bool := posfixableP f && negfixableP f

/-- An `Integer` `VALUE`: a Fixnum is the tagged word itself, a Bignum the number it holds. -/
inductive RInteger where
  | fixnum (v : Value)
  | bignum (n : ℤ)
  deriving DecidableEq, Repr

/-- `rb_int2big`: a Bignum holding `n`, whatever its size. -/
def rbInt2big (n : Long) : RInteger := .bignum n.toInt

/-- `rb_long2num_inline` (`LONG2NUM`). -/
def long2num (v : Long) : RInteger :=
  if fixableP v.toInt then .fixnum (long2fix v) else rbInt2big v

/-- `bignorm`, through `bigfixize`: a Bignum whose value fits a Fixnum becomes that Fixnum. -/
def bignorm : RInteger → RInteger
  | .bignum n => if fixableP n then .fixnum (long2fix (BitVec.ofInt 64 n)) else .bignum n
  | x => x

namespace RInteger

/-- The number an `Integer` stands for. -/
def val : RInteger → ℤ
  | fixnum v => (fix2long v).toInt
  | bignum n => n

/-- The form Ruby keeps its `Integer`s in: a Fixnum is a tagged word, and a Bignum is never
fixable. -/
def Canonical : RInteger → Prop
  | fixnum v => fixnumP v = true
  | bignum n => fixableP n = false

end RInteger

/-- `r` is the canonical `Integer` for `n`. -/
structure Represents (r : RInteger) (n : ℤ) : Prop where
  val_eq : r.val = n
  canonical : r.Canonical

/-- A Fixnum: a word with `FIXNUM_P`. -/
structure Fixnum where
  /-- the tagged word -/
  value : Value
  fixnum_p : fixnumP value = true

/-- `FIX2LONG` of a Fixnum, as a number. -/
def Fixnum.toInt (a : Fixnum) : ℤ := (fix2long a.value).toInt

/-! ## The constants -/

theorem fixnumMax_eq : fixnumMax = 2 ^ 62 - 1 := by decide

theorem fixnumMin_eq : fixnumMin = -2 ^ 62 := by decide

theorem fixableP_iff {f : ℤ} : fixableP f = true ↔ -2 ^ 62 ≤ f ∧ f < 2 ^ 62 := by
  rw [fixableP, posfixableP, negfixableP, fixnumMax_eq, fixnumMin_eq]
  simp only [Bool.and_eq_true, decide_eq_true_eq]
  omega

/-! ## Tagging -/

theorem toInt_fix2long (x : Value) : (fix2long x).toInt = x.toInt / 2 :=
  toInt_sshiftRight_one x

/-- `FIX2LONG` of any word is fixable: the shift leaves 63 significant bits. -/
theorem fixableP_fix2long (x : Value) : fixableP (fix2long x).toInt = true := by
  have hlo := BitVec.le_toInt x
  have hhi := BitVec.toInt_lt (x := x)
  rw [fixableP_iff, toInt_fix2long]
  simp only [show (64 : ℕ) - 1 = 63 from rfl] at hlo hhi
  omega

theorem toInt_long2fix {i : Long} (h : fixableP i.toInt = true) :
    (long2fix i).toInt = 2 * i.toInt + 1 := by
  rw [fixableP_iff] at h
  exact toInt_shiftLeft_one_or_one i h.1 h.2

theorem fix2long_long2fix {i : Long} (h : fixableP i.toInt = true) :
    fix2long (long2fix i) = i := by
  apply BitVec.eq_of_toInt_eq
  rw [toInt_fix2long, toInt_long2fix h]
  omega

theorem toNat_fixnumFlag : fixnumFlag.toNat = 1 := rfl

/-- `FIXNUM_P` tests bit 0: a word is tagged exactly when it is odd. -/
theorem fixnumP_iff {v : Value} : fixnumP v = true ↔ v.toNat % 2 = 1 := by
  have hbit : (v &&& fixnumFlag).toNat = v.toNat % 2 := by
    rw [BitVec.toNat_and, toNat_fixnumFlag, Nat.and_one_is_mod]
  simp only [fixnumP, bne_iff_ne, ne_eq]
  constructor
  · intro h
    rcases Nat.mod_two_eq_zero_or_one v.toNat with h0 | h1
    · exact absurd (BitVec.eq_of_toNat_eq (by rw [hbit, h0]; rfl)) h
    · exact h1
  · intro h h0
    rw [h0, h] at hbit
    cases hbit

/-- A word whose signed value is odd is tagged. -/
theorem fixnumP_of_toInt {v : Value} {e : ℤ} (h : v.toInt = 2 * e + 1) : fixnumP v = true := by
  rw [fixnumP_iff]
  have hv := v.isLt
  rw [toInt_eq_ite v] at h
  split_ifs at h <;> omega

theorem fixnumP_long2fix (i : Long) : fixnumP (long2fix i) = true := by
  rw [fixnumP_iff, long2fix, BitVec.toNat_or, toNat_fixnumFlag]
  exact Nat.or_mod_two_eq_one.mpr (Or.inr rfl)

/-- A tagged word is odd: twice its `FIX2LONG` plus one. -/
theorem toInt_of_fixnumP {v : Value} (h : fixnumP v = true) :
    v.toInt = 2 * (fix2long v).toInt + 1 := by
  have hodd := fixnumP_iff.mp h
  rw [toInt_fix2long, toInt_eq_ite v]
  split_ifs <;> omega

theorem long2fix_fix2long {v : Value} (h : fixnumP v = true) : long2fix (fix2long v) = v := by
  apply BitVec.eq_of_toInt_eq
  rw [toInt_long2fix (fixableP_fix2long v), toInt_of_fixnumP h]

/-! ## Canonical `Integer`s -/

theorem val_fixnum_long2fix {i : Long} (h : fixableP i.toInt = true) :
    (RInteger.fixnum (long2fix i)).val = i.toInt := by
  rw [RInteger.val, fix2long_long2fix h]

/-- A fixable `long` tagged as a Fixnum is the canonical `Integer` for it. -/
theorem represents_long2fix {i : Long} (h : fixableP i.toInt = true) :
    Represents (.fixnum (long2fix i)) i.toInt :=
  ⟨val_fixnum_long2fix h, fixnumP_long2fix i⟩

/-- A `long` holding a fixable `n`, tagged, is the canonical `Integer` for `n`. -/
theorem represents_long2fix_of_eq {i : Long} {n : ℤ} (hi : i.toInt = n) (hn : fixableP n = true) :
    Represents (.fixnum (long2fix i)) n := by
  subst hi
  exact represents_long2fix hn

/-- A Bignum is canonical for a number that is not fixable. -/
theorem represents_bignum {n : ℤ} (h : fixableP n = false) : Represents (.bignum n) n :=
  ⟨rfl, h⟩

theorem represents_long2num (v : Long) : Represents (long2num v) v.toInt := by
  unfold long2num
  split
  · exact represents_long2fix ‹_›
  · rename_i h
    exact represents_bignum (Bool.eq_false_iff.mpr h)

/-- A fixable number survives the cast to `long`. -/
theorem toInt_ofInt_of_fixableP {n : ℤ} (h : fixableP n = true) : (BitVec.ofInt 64 n).toInt = n := by
  rw [BitVec.toInt_ofInt]
  rw [fixableP_iff] at h
  exact Int.bmod_eq_of_le (by omega) (by omega)

theorem represents_bignorm (n : ℤ) : Represents (bignorm (.bignum n)) n := by
  rw [bignorm]
  split
  · rename_i h
    have hn := toInt_ofInt_of_fixableP h
    have hrep := represents_long2fix (i := BitVec.ofInt 64 n) (by rwa [hn])
    rwa [hn] at hrep
  · rename_i h
    exact represents_bignum (Bool.eq_false_iff.mpr h)

/-- A Fixnum's value is fixable, whatever its word. -/
theorem fixableP_val_fixnum (v : Value) : fixableP (RInteger.fixnum v).val = true :=
  fixableP_fix2long v

/-- **Canonical forms are unique**: an `Integer` in canonical form is determined by its value. -/
theorem Represents.unique {r r' : RInteger} {n : ℤ} (h : Represents r n) (h' : Represents r' n) :
    r = r' := by
  have hv : r.val = r'.val := h.val_eq.trans h'.val_eq.symm
  cases r with
  | fixnum v =>
    cases r' with
    | fixnum v' =>
      have hc : fixnumP v = true := h.canonical
      have hc' : fixnumP v' = true := h'.canonical
      have hlong : fix2long v = fix2long v' := BitVec.eq_of_toInt_eq hv
      rw [← long2fix_fix2long hc, ← long2fix_fix2long hc', hlong]
    | bignum n' =>
      have hc' : fixableP n' = false := h'.canonical
      have hfix := fixableP_val_fixnum v
      rw [hv] at hfix
      exact absurd hfix (by simp [RInteger.val, hc'])
  | bignum m =>
    cases r' with
    | fixnum v' =>
      have hc : fixableP m = false := h.canonical
      have hfix := fixableP_val_fixnum v'
      rw [← hv] at hfix
      exact absurd hfix (by simp [RInteger.val, hc])
    | bignum n' => exact congrArg RInteger.bignum hv

/-! ## Fixnums -/

/-- The Fixnum of a fixable `long`. -/
def Fixnum.ofLong (i : Long) : Fixnum := ⟨long2fix i, fixnumP_long2fix i⟩

theorem Fixnum.toInt_ofLong {i : Long} (h : fixableP i.toInt = true) :
    (Fixnum.ofLong i).toInt = i.toInt := by
  rw [Fixnum.toInt, Fixnum.ofLong, fix2long_long2fix h]

/-- A Fixnum's value lies in `[FIXNUM_MIN, FIXNUM_MAX]`. -/
theorem Fixnum.fixableP_toInt (a : Fixnum) : fixableP a.toInt = true := fixableP_fix2long _

/-- Every number in `[FIXNUM_MIN, FIXNUM_MAX]` is the value of a Fixnum. -/
theorem Fixnum.exists_toInt {n : ℤ} (h : fixableP n = true) : ∃ a : Fixnum, a.toInt = n := by
  have hn := toInt_ofInt_of_fixableP h
  refine ⟨Fixnum.ofLong (BitVec.ofInt 64 n), ?_⟩
  rw [Fixnum.toInt_ofLong (by rwa [hn]), hn]

/-- The word of a Fixnum is its value tagged: `x == LONG2FIX(FIX2LONG(x))`. -/
theorem Fixnum.toInt_value (a : Fixnum) : a.value.toInt = 2 * a.toInt + 1 :=
  toInt_of_fixnumP a.fixnum_p

end CRuby.Num
