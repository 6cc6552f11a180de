import CRuby.Marshal.Graph
import Mathlib.Data.List.ReduceOption

/-!
# `Marshal.load(Marshal.dump(obj))` on an object graph

The loader reads back what the dumper wrote, object for object: it makes one object for each
heap object the dump entered in its link table, in the same order, so the graph it makes is the
dumped one with the objects renumbered by their place in that table.

The proof is a simulation. `Corr` says how the load's tables stand to the dump's after the same
objects: the link table of the load holds, where the dump's holds a heap object, a reference to
the object made for it; the Symbol tables hold the same names and encodings; the load has made
as many objects as the dump entered. `Steps` says what reading back the bytes of one value does:
the tables correspond again, the objects made before are untouched and each object made is the
dumped one renumbered (`Made`). `simulates_succ` proves one level of `w_object` from the level
below, with a lemma for each case of `w_object` and one for the loop over an Array's elements;
`wObject_load` is the induction on the levels.

Two facts of a real dump enter as hypotheses. Every object is in the form Ruby keeps it in
(`Obj.Canonical`), so that `rb_integer_unpack` makes the Bignum again and not a Fixnum. The dump
is shorter than `2 ^ 63` bytes, as a String is: every length and every link number it writes is
then below that, and `r_long` reads back the number that `w_long` was given.
-/

namespace CRuby.Marshal.Graph

open CRuby.Num CRuby.Ary

/-! ## The readers, case by case -/

section Readers

variable {rObj : Bool → ObjReader} {rSym : Bool → SymReader} {ivp : Bool} {s s₁ s₂ : List UInt8}
  {arg arg₁ arg₂ : LoadArg}

theorem rObject0_cons (f : ℕ) (ivp : Bool) (b : UInt8) (s : List UInt8) (arg : LoadArg) :
    rObject0 (f + 1) ivp (b :: s) arg = rObjectSwitch (rObject0 f) (rSymbol f) b ivp s arg := by
  rw [rObject0]
  rfl

theorem rSymbol_cons (f : ℕ) (ivar : Bool) (b : UInt8) (s : List UInt8) (arg : LoadArg) :
    rSymbol (f + 1) ivar (b :: s) arg =
      rSymbolSwitch (rSymbol f) (rObject0 f false) b ivar s arg := by
  rw [rSymbol]
  rfl

theorem rObjectSwitch_link {num : Long} {v : Val} (hr : rLong s = .ok (num, s₁))
    (hv : lookupIndex arg.data num = some v) :
    rObjectSwitch rObj rSym typeLink ivp s arg = .ok (v, ivp, s₁, arg) := by
  rw [rObjectSwitch, if_pos rfl, hr, Except.mapError_ok, Except.ok_bind]
  dsimp only
  rw [hv]
  rfl

theorem rObjectSwitch_ivar {v : Val} (hv : rObj true s arg = .ok (v, true, s₁, arg₁))
    (hi : rIvar (rSym false) (rObj false) v s₁ arg₁ = .ok (s₂, arg₂)) :
    rObjectSwitch rObj rSym typeIvar ivp s arg = .ok (v, ivp, s₂, arg₂) := by
  rw [rObjectSwitch, if_neg (by decide), if_pos rfl, hv, Except.ok_bind]
  dsimp only
  rw [if_pos rfl, hi]
  rfl

/-- After `TYPE_IVAR`, an object that took the instance variables itself (a Symbol) leaves none
for `r_ivar`. -/
theorem rObjectSwitch_ivar_taken {v : Val} (hv : rObj true s arg = .ok (v, false, s₁, arg₁)) :
    rObjectSwitch rObj rSym typeIvar ivp s arg = .ok (v, ivp, s₁, arg₁) := by
  rw [rObjectSwitch, if_neg (by decide), if_pos rfl, hv, Except.ok_bind]
  rfl

theorem rObjectSwitch_nil : rObjectSwitch rObj rSym typeNil ivp s arg = .ok (.qnil, ivp, s, arg) := by
  rw [rObjectSwitch, if_neg (by decide), if_neg (by decide), if_pos rfl]
  rfl

theorem rObjectSwitch_true :
    rObjectSwitch rObj rSym typeTrue ivp s arg = .ok (.qtrue, ivp, s, arg) := by
  rw [rObjectSwitch, if_neg (by decide), if_neg (by decide), if_neg (by decide), if_pos rfl]
  rfl

theorem rObjectSwitch_false :
    rObjectSwitch rObj rSym typeFalse ivp s arg = .ok (.qfalse, ivp, s, arg) := by
  rw [rObjectSwitch, if_neg (by decide), if_neg (by decide), if_neg (by decide),
    if_neg (by decide), if_pos rfl]
  rfl

theorem rObjectSwitch_fixnum {i : Long} (hr : rLong s = .ok (i, s₁)) :
    rObjectSwitch rObj rSym typeFixnum ivp s arg = .ok (.fixnum (long2fix i), ivp, s₁, arg) := by
  rw [rObjectSwitch, if_neg (by decide), if_neg (by decide), if_neg (by decide),
    if_neg (by decide), if_neg (by decide), if_pos rfl, hr, Except.mapError_ok, Except.ok_bind]
  rfl

/-- A Bignum whose value fits a Fixnum is that Fixnum, entered but not made. -/
theorem rObjectSwitch_bignum_fixnum {w : Value} (hr : rBignum s = .ok (.fixnum w, s₁)) :
    rObjectSwitch rObj rSym typeBignum ivp s arg =
      .ok (.fixnum w, ivp, s₁, arg.entry (.fixnum w)) := by
  rw [rObjectSwitch, if_neg (by decide), if_neg (by decide), if_neg (by decide),
    if_neg (by decide), if_neg (by decide), if_neg (by decide), if_pos rfl, hr,
    Except.mapError_ok, Except.ok_bind]
  rfl

theorem rObjectSwitch_bignum {n : ℤ} (hr : rBignum s = .ok (.bignum n, s₁)) :
    rObjectSwitch rObj rSym typeBignum ivp s arg =
      .ok (.ref arg.heap.length, ivp, s₁, (arg.alloc (.bignum n)).2.entry (.ref arg.heap.length)) := by
  rw [rObjectSwitch, if_neg (by decide), if_neg (by decide), if_neg (by decide),
    if_neg (by decide), if_neg (by decide), if_neg (by decide), if_pos rfl, hr,
    Except.mapError_ok, Except.ok_bind]
  rfl

theorem rObjectSwitch_string {len : Long} {bytes : List UInt8} (hr : rLong s = .ok (len, s₁))
    (hb : rBytes0 len s₁ = .ok (bytes, s₂)) :
    rObjectSwitch rObj rSym typeString ivp s arg =
      .ok (.ref arg.heap.length, ivp, s₂,
        (arg.alloc (.str bytes .ascii8bit)).2.entry (.ref arg.heap.length)) := by
  rw [rObjectSwitch, if_neg (by decide), if_neg (by decide), if_neg (by decide),
    if_neg (by decide), if_neg (by decide), if_neg (by decide), if_neg (by decide), if_pos rfl,
    hr, Except.mapError_ok, Except.ok_bind]
  dsimp only
  rw [hb, Except.mapError_ok, Except.ok_bind]
  rfl

theorem rObjectSwitch_array {len : Long} (hr : rLong s = .ok (len, s₁)) (h0 : 0 ≤ len.toInt)
    (hmax : len.toInt ≤ aryMaxSize)
    (he : rElems (rObj false) arg.heap.length len.toNat s₁
      ((arg.alloc (.ary [])).2.entry (.ref arg.heap.length)) = .ok (s₂, arg₂)) :
    rObjectSwitch rObj rSym typeArray ivp s arg = .ok (.ref arg.heap.length, ivp, s₂, arg₂) := by
  rw [rObjectSwitch, if_neg (by decide), if_neg (by decide), if_neg (by decide),
    if_neg (by decide), if_neg (by decide), if_neg (by decide), if_neg (by decide),
    if_neg (by decide), if_pos rfl, hr, Except.mapError_ok, Except.ok_bind]
  dsimp only
  rw [if_neg (by omega), if_neg (by omega)]
  simp only [LoadArg.alloc] at he ⊢
  rw [he]
  rfl

theorem rObjectSwitch_symbol {str : List UInt8 × StrEnc}
    (hs : rSymreal (rSym false) (rObj false) ivp s arg = .ok (str, s₁, arg₁)) :
    rObjectSwitch rObj rSym typeSymbol ivp s arg =
      .ok (.sym (rbStrIntern str.1 str.2), false, s₁, arg₁) := by
  rw [rObjectSwitch, if_neg (by decide), if_neg (by decide), if_neg (by decide),
    if_neg (by decide), if_neg (by decide), if_neg (by decide), if_neg (by decide),
    if_neg (by decide), if_neg (by decide), if_pos rfl, hs, Except.ok_bind]
  rfl

theorem rObjectSwitch_symlink {str : List UInt8 × StrEnc} (hs : rSymlink s arg = .ok (str, s₁)) :
    rObjectSwitch rObj rSym typeSymlink ivp s arg =
      .ok (.sym (rbStrIntern str.1 str.2), ivp, s₁, arg) := by
  rw [rObjectSwitch, if_neg (by decide), if_neg (by decide), if_neg (by decide),
    if_neg (by decide), if_neg (by decide), if_neg (by decide), if_neg (by decide),
    if_neg (by decide), if_neg (by decide), if_neg (by decide), if_pos rfl, hs, Except.ok_bind]
  rfl

theorem rSymbolSwitch_symbol {robj : ObjReader} {ivar : Bool}
    {r : (List UInt8 × StrEnc) × List UInt8 × LoadArg}
    (hs : rSymreal (rSym false) robj ivar s arg = .ok r) :
    rSymbolSwitch rSym robj typeSymbol ivar s arg = .ok r := by
  rw [rSymbolSwitch, if_neg (by decide), if_pos rfl, hs]

theorem rSymbolSwitch_symlink {robj : ObjReader} {str : List UInt8 × StrEnc}
    (hs : rSymlink s arg = .ok (str, s₁)) :
    rSymbolSwitch rSym robj typeSymlink false s arg = .ok (str, s₁, arg) := by
  rw [rSymbolSwitch, if_neg (by decide), if_neg (by decide), if_pos rfl, if_neg (by decide), hs,
    Except.ok_bind]
  rfl

end Readers

/-! ## Numbers below `2 ^ 63` -/

section Numbers

/-- A count below `2 ^ 63` is a `long` that holds it. -/
theorem toInt_ofNat_of_lt {n : ℕ} (h : n < 2 ^ 63) : (BitVec.ofNat 64 n).toInt = n := by
  rw [BitVec.toInt_ofNat', Int.bmod_eq_of_le] <;> push_cast <;> omega

theorem toNat_ofNat_of_lt {n : ℕ} (h : n < 2 ^ 63) : (BitVec.ofNat 64 n).toNat = n := by
  rw [BitVec.toNat_ofNat, Nat.mod_eq_of_lt (by omega)]

/-- `st_lookup` of a number below `2 ^ 63` finds the entry of that number. -/
theorem lookupIndex_ofNat {α : Type} (l : List α) {n : ℕ} (h : n < 2 ^ 63) :
    lookupIndex l (BitVec.ofNat 64 n) = l[n]? := by
  rw [lookupIndex, if_pos (by rw [toInt_ofNat_of_lt h]; omega), toNat_ofNat_of_lt h]

/-- `w_long` writes only what passes its 32-bit guard. -/
theorem wLong_ok_range {x : Long} {lb : List UInt8} (hw : wLong x = .ok lb) :
    -2 ^ 31 ≤ x.toInt ∧ x.toInt < 2 ^ 31 := by
  by_contra hg
  rw [wLong_of_not_range hg] at hw
  cases hw

/-- What `w_bytes` wrote, `r_long` and `r_bytes0` read back. -/
theorem wBytes_read {bs out : List UInt8} (hw : wBytes bs = .ok out) (h : out.length < 2 ^ 63)
    (rest : List UInt8) :
    ∃ len, rLong (out ++ rest) = .ok (len, bs ++ rest) ∧ rBytes0 len (bs ++ rest) = .ok (bs, rest) := by
  obtain ⟨lb, hlb, hout⟩ := Except.bind_eq_ok hw
  obtain rfl : lb ++ bs = out := Except.ok.inj hout
  refine ⟨_, by rw [List.append_assoc, rLong_append_of_wLong hlb], rBytes0_append ?_ rest⟩
  rw [List.length_append] at h
  exact toInt_ofNat_of_lt (by omega)

end Numbers

/-! ## What the dump wrote, case by case -/

section Dump

variable {H : List Obj} {d : ℕ} {limit : ℤ} {D D' : DumpArg} {bs : List UInt8}

/-- Every value is written at one level at least. -/
theorem wObject_ok_succ {v : Val} (h : wObject H d v limit D = .ok (bs, D')) : ∃ d', d = d' + 1 := by
  cases d with
  | zero => cases h
  | succ d' => exact ⟨d', rfl⟩

theorem wObject_qnil (h : wObject H (d + 1) .qnil limit D = .ok (bs, D')) : bs = [typeNil] ∧ D' = D := by
  obtain ⟨_, -, h⟩ := Except.bind_eq_ok h
  cases h
  exact ⟨rfl, rfl⟩

theorem wObject_qtrue (h : wObject H (d + 1) .qtrue limit D = .ok (bs, D')) :
    bs = [typeTrue] ∧ D' = D := by
  obtain ⟨_, -, h⟩ := Except.bind_eq_ok h
  cases h
  exact ⟨rfl, rfl⟩

theorem wObject_qfalse (h : wObject H (d + 1) .qfalse limit D = .ok (bs, D')) :
    bs = [typeFalse] ∧ D' = D := by
  obtain ⟨_, -, h⟩ := Except.bind_eq_ok h
  cases h
  exact ⟨rfl, rfl⟩

/-- The flag of `w_encoding`: `true` or `false`, one byte. -/
theorem wObject_flag {e : Bool}
    (h : wObject H d (if e then .qtrue else .qfalse) limit D = .ok (bs, D')) :
    bs = [if e then typeTrue else typeFalse] ∧ D' = D := by
  obtain ⟨d, rfl⟩ := wObject_ok_succ h
  cases e
  · exact wObject_qfalse h
  · exact wObject_qtrue h

theorem wObject_fixnum {v : Value} (h : wObject H (d + 1) (.fixnum v) limit D = .ok (bs, D')) :
    ∃ limit', wObjectLimit limit = .ok limit' ∧
      (((v.sshiftRight 31 = 0 ∨ v.sshiftRight 31 = -1) ∧ ∃ lb, wLong (fix2long v) = .ok lb ∧
          bs = typeFixnum :: lb ∧ D' = D) ∨
        (¬(v.sshiftRight 31 = 0 ∨ v.sshiftRight 31 = -1) ∧
          wObjectBignum limit' (rbInt2big (fix2long v)).val = .ok bs ∧
          D' = { D with data := D.data ++ [none] })) := by
  obtain ⟨limit', hl, h⟩ := Except.bind_eq_ok h
  refine ⟨limit', Except.mapError_eq_ok.mp hl, ?_⟩
  dsimp only at h
  by_cases hg : v.sshiftRight 31 = 0 ∨ v.sshiftRight 31 = -1
  · rw [if_pos hg] at h
    obtain ⟨lb, hlb, h⟩ := Except.bind_eq_ok h
    cases h
    exact .inl ⟨hg, lb, Except.mapError_eq_ok.mp hlb, rfl, rfl⟩
  · rw [if_neg hg] at h
    obtain ⟨b, hb, h⟩ := Except.bind_eq_ok h
    cases h
    exact .inr ⟨hg, Except.mapError_eq_ok.mp hb, rfl⟩

theorem wObject_sym {s : RSym} {r : List UInt8 × DumpArg}
    (h : wObject H (d + 1) (.sym s) limit D = .ok r) : wSymbol (wObject H d) d s D = .ok r := by
  obtain ⟨_, -, h⟩ := Except.bind_eq_ok h
  exact h

/-- A reference is a link to an object entered before, or the object, entered now: its body,
and for a String with an encoding, the encoding as its instance variable. -/
theorem wObject_ref {id : ℕ} (h : wObject H (d + 1) (.ref id) limit D = .ok (bs, D')) :
    ∃ limit', wObjectLimit limit = .ok limit' ∧
      ((∃ num lb, D.data.idxOf? (some id) = some num ∧ wLong (BitVec.ofNat 64 num) = .ok lb ∧
          bs = typeLink :: lb ∧ D' = D) ∨
        (D.data.idxOf? (some id) = none ∧ ∃ o, H[id]? = some o ∧ ∃ body D₁,
          wObjectBody (fun x => wObject H d x limit') limit o
            { D with data := D.data ++ [some id] } = .ok (body, D₁) ∧
          ((o.encodingName = none ∧ bs = body ∧ D' = D₁) ∨
            (∃ e iv, o.encodingName = some e ∧
              wIvar (wObject H d) (wSymbol (wObject H d) d) limit' e D₁ = .ok (iv, D') ∧
              bs = typeIvar :: body ++ iv)))) := by
  obtain ⟨limit', hl, h⟩ := Except.bind_eq_ok h
  refine ⟨limit', Except.mapError_eq_ok.mp hl, ?_⟩
  dsimp only at h
  cases hnum : D.data.idxOf? (some id) with
  | some num =>
    rw [hnum] at h
    obtain ⟨lb, hlb, h⟩ := Except.bind_eq_ok h
    cases h
    exact .inl ⟨num, lb, rfl, Except.mapError_eq_ok.mp hlb, rfl, rfl⟩
  | none =>
    rw [hnum] at h
    cases ho : H[id]? with
    | none =>
      rw [ho] at h
      cases h
    | some o =>
      rw [ho] at h
      obtain ⟨⟨body, D₁⟩, hbody, h⟩ := Except.bind_eq_ok h
      refine .inr ⟨rfl, o, rfl, body, D₁, hbody, ?_⟩
      cases he : o.encodingName with
      | none =>
        rw [he] at h
        cases h
        exact .inl ⟨rfl, rfl, rfl⟩
      | some e =>
        rw [he] at h
        obtain ⟨⟨iv, D₂⟩, hiv, h⟩ := Except.bind_eq_ok h
        cases h
        exact .inr ⟨e, iv, rfl, hiv, rfl⟩

variable {wObj : Val → DumpArg → Except DumpError (List UInt8 × DumpArg)} {limit₀ : ℤ}

theorem wObjectBody_bignum {n : ℤ} (h : wObjectBody wObj limit₀ (.bignum n) D = .ok (bs, D')) :
    wObjectBignum limit₀ n = .ok bs ∧ D' = D := by
  obtain ⟨b, hb, h⟩ := Except.bind_eq_ok h
  cases h
  exact ⟨Except.mapError_eq_ok.mp hb, rfl⟩

theorem wObjectBody_str {b : List UInt8} {enc : StrEnc}
    (h : wObjectBody wObj limit₀ (.str b enc) D = .ok (bs, D')) :
    ∃ wb, wBytes b = .ok wb ∧ bs = typeString :: wb ∧ D' = D := by
  obtain ⟨wb, hwb, h⟩ := Except.bind_eq_ok h
  cases h
  exact ⟨wb, Except.mapError_eq_ok.mp hwb, rfl, rfl⟩

theorem wObjectBody_ary {xs : List Val} (h : wObjectBody wObj limit₀ (.ary xs) D = .ok (bs, D')) :
    ∃ lb es, wLong (BitVec.ofNat 64 xs.length) = .ok lb ∧ wElems wObj xs D = .ok (es, D') ∧
      bs = typeArray :: lb ++ es := by
  obtain ⟨lb, hlb, h⟩ := Except.bind_eq_ok h
  obtain ⟨⟨es, D₁⟩, hes, h⟩ := Except.bind_eq_ok h
  cases h
  exact ⟨lb, es, Except.mapError_eq_ok.mp hlb, hes, rfl⟩

theorem wElems_cons {x : Val} {xs : List Val} (h : wElems wObj (x :: xs) D = .ok (bs, D')) :
    ∃ b D₁ bs', wObj x D = .ok (b, D₁) ∧ wElems wObj xs D₁ = .ok (bs', D') ∧ bs = b ++ bs' := by
  obtain ⟨⟨b, D₁⟩, hb, h⟩ := Except.bind_eq_ok h
  obtain ⟨⟨bs', D₂⟩, hbs, h⟩ := Except.bind_eq_ok h
  cases h
  exact ⟨b, D₁, bs', hb, hbs, rfl⟩

variable {wObj : Val → ℤ → DumpArg → Except DumpError (List UInt8 × DumpArg)}
  {wSym : RSym → DumpArg → Except DumpError (List UInt8 × DumpArg)} {e : Bool}

theorem wIvar_ok (h : wIvar wObj wSym limit e D = .ok (bs, D')) :
    ∃ one enc, wLong 1 = .ok one ∧ wEncoding wObj wSym limit e D = .ok (enc, D') ∧
      bs = one ++ enc := by
  obtain ⟨one, hone, h⟩ := Except.bind_eq_ok h
  obtain ⟨⟨enc, D₁⟩, henc, h⟩ := Except.bind_eq_ok h
  cases h
  exact ⟨one, enc, Except.mapError_eq_ok.mp hone, henc, rfl⟩

/-- `w_encoding` writes `:E` and the flag, and enters nothing but the Symbol. -/
theorem wEncoding_ok (h : wEncoding (wObject H d) wSym limit e D = .ok (bs, D')) :
    ∃ esym, wSym symE D = .ok (esym, D') ∧ bs = esym ++ [if e then typeTrue else typeFalse] := by
  obtain ⟨⟨esym, D₁⟩, hsym, h⟩ := Except.bind_eq_ok h
  obtain ⟨⟨flag, D₂⟩, hflag, h⟩ := Except.bind_eq_ok h
  cases h
  obtain ⟨rfl, rfl⟩ := wObject_flag hflag
  exact ⟨esym, hsym, rfl⟩

variable {wObj : Val → ℤ → DumpArg → Except DumpError (List UInt8 × DumpArg)} {k : ℕ} {sym : RSym}

/-- A Symbol is a link to one written before, or its name, entered now; a name that is not all
ASCII and has an encoding with a name gets that encoding as its instance variable. -/
theorem wSymbol_ok (h : wSymbol wObj (k + 1) sym D = .ok (bs, D')) :
    (∃ num lb, D.symbols.idxOf? sym = some num ∧ wLong (BitVec.ofNat 64 num) = .ok lb ∧
        bs = typeSymlink :: lb ∧ D' = D) ∨
      (D.symbols.idxOf? sym = none ∧ ∃ name, wBytes sym.name = .ok name ∧
        (((isAsciiOnly sym.name = true ∨ encodingName sym.enc = none) ∧ bs = typeSymbol :: name ∧
            D' = { D with symbols := D.symbols ++ [sym] }) ∨
          (∃ e one enc, isAsciiOnly sym.name = false ∧ encodingName sym.enc = some e ∧
            wLong 1 = .ok one ∧
            wEncoding wObj (wSymbol wObj k) 1 e { D with symbols := D.symbols ++ [sym] } =
              .ok (enc, D') ∧
            bs = typeIvar :: typeSymbol :: name ++ one ++ enc))) := by
  rw [wSymbol] at h
  cases hnum : D.symbols.idxOf? sym with
  | some num =>
    rw [hnum] at h
    obtain ⟨lb, hlb, h⟩ := Except.bind_eq_ok h
    cases h
    exact .inl ⟨num, lb, rfl, Except.mapError_eq_ok.mp hlb, rfl, rfl⟩
  | none =>
    rw [hnum] at h
    obtain ⟨name, hname, h⟩ := Except.bind_eq_ok h
    refine .inr ⟨rfl, name, Except.mapError_eq_ok.mp hname, ?_⟩
    by_cases ha : isAsciiOnly sym.name = true
    · rw [if_pos ha] at h
      cases h
      exact .inl ⟨.inl ha, rfl, rfl⟩
    · rw [if_neg ha] at h
      cases he : encodingName sym.enc with
      | none =>
        rw [he] at h
        cases h
        exact .inl ⟨.inr rfl, rfl, rfl⟩
      | some e =>
        rw [he] at h
        obtain ⟨one, hone, h⟩ := Except.bind_eq_ok h
        obtain ⟨⟨enc, D₂⟩, henc, h⟩ := Except.bind_eq_ok h
        cases h
        exact .inr ⟨e, one, enc, by simpa using ha, rfl, Except.mapError_eq_ok.mp hone, henc, rfl⟩

end Dump

/-! ## The tables of a dump and of its load -/

section Tables

/-- The heap objects a dump has entered, in the order it entered them: the load numbers the
objects it makes for them in this order. -/
def DumpArg.ids (D : DumpArg) : List ℕ := D.data.reduceOption

/-- A Symbol as the load's table keeps it. -/
def RSym.entry (s : RSym) : List UInt8 × StrEnc := (s.name, s.enc)

/-- How the load's tables stand to the dump's after the same values, `pos` bytes into the dump.
Where the dump's link table holds a heap object, the load's holds a reference to the object
made for it, numbered by its place among the entered objects; the Bignum of a Fixnum that the
dump enters is a Fixnum again in the load, which nothing links to. The Symbol tables hold the
same names and encodings, and the load has made one object for each one entered. Every entry
took a byte of the dump at least. -/
structure Corr (pos : ℕ) (D : DumpArg) (L : LoadArg) : Prop where
  ids_nodup : D.ids.Nodup
  data_length : L.data.length = D.data.length
  data_ref : ∀ k id : ℕ, D.data[k]? = some (some id) → L.data[k]? = some (Val.ref (D.ids.idxOf id))
  symbols : L.symbols = D.symbols.map RSym.entry
  heap_length : L.heap.length = D.ids.length
  entries_le : D.data.length + D.symbols.length ≤ pos

variable {pos : ℕ} {D : DumpArg} {L : LoadArg}

theorem corr_empty : Corr 0 ⟨[], []⟩ ⟨[], [], []⟩ where
  ids_nodup := List.nodup_nil
  data_length := rfl
  data_ref _ _ h := by simp at h
  symbols := rfl
  heap_length := rfl
  entries_le := le_rfl

theorem Corr.mono {pos' : ℕ} (hc : Corr pos D L) (h : pos ≤ pos') : Corr pos' D L :=
  { hc with entries_le := hc.entries_le.trans h }

/-- The load's tables and the count of its objects are all that `Corr` looks at. -/
theorem Corr.of_heap {L' : LoadArg} (hc : Corr pos D L) (hd : L'.data = L.data)
    (hs : L'.symbols = L.symbols) (hh : L'.heap.length = L.heap.length) : Corr pos D L' :=
  { hc with
    data_length := hd ▸ hc.data_length
    data_ref := hd ▸ hc.data_ref
    symbols := hs ▸ hc.symbols
    heap_length := hh ▸ hc.heap_length }

theorem DumpArg.mem_ids {id : ℕ} : id ∈ D.ids ↔ some id ∈ D.data := List.reduceOption_mem_iff

@[simp] theorem DumpArg.ids_enter (id : Option ℕ) :
    ({ D with data := D.data ++ [id] } : DumpArg).ids = D.ids ++ id.toList := by
  cases id <;> simp [DumpArg.ids, List.reduceOption_append]

/-- Entering a heap object that was not entered before: the load makes it as its next object
and enters a reference to it. -/
theorem Corr.enterRef {id : ℕ} (hc : Corr pos D L) (hnew : D.data.idxOf? (some id) = none)
    (o : Obj) :
    Corr (pos + 1) { D with data := D.data ++ [some id] }
      ((L.alloc o).2.entry (.ref L.heap.length)) := by
  have hid : id ∉ D.ids := fun h => List.idxOf?_eq_none_iff.mp hnew (DumpArg.mem_ids.mp h)
  refine ⟨?_, ?_, ?_, hc.symbols, ?_, ?_⟩
  · rw [DumpArg.ids_enter, Option.toList_some]
    exact hc.ids_nodup.append (List.nodup_singleton id) (by simpa using hid)
  · simp [LoadArg.entry, LoadArg.alloc, hc.data_length]
  · intro k id' hk
    simp only [LoadArg.entry, LoadArg.alloc, DumpArg.ids_enter, Option.toList_some]
    rcases Nat.lt_trichotomy k D.data.length with hlt | rfl | hgt
    · rw [List.getElem?_append_left hlt] at hk
      have hmem : id' ∈ D.ids := DumpArg.mem_ids.mpr (List.mem_of_getElem? hk)
      rw [List.getElem?_append_left (by rw [hc.data_length]; exact hlt), hc.data_ref k id' hk,
        List.idxOf_append_of_mem hmem]
    · obtain rfl : id = id' := by simpa using hk
      rw [← hc.data_length, List.getElem?_concat_length, List.idxOf_append_of_notMem hid,
        hc.heap_length]
      simp
    · rw [List.getElem?_eq_none (by simp; omega)] at hk
      cases hk
  · simp [LoadArg.entry, LoadArg.alloc, hc.heap_length]
  · have := hc.entries_le
    simp only [List.length_append, List.length_singleton]
    omega

/-- Entering the Bignum of a Fixnum, which the load reads as the Fixnum. -/
theorem Corr.enterNone (hc : Corr pos D L) (v : Val) :
    Corr (pos + 1) { D with data := D.data ++ [none] } (L.entry v) := by
  refine ⟨by simpa using hc.ids_nodup, by simp [LoadArg.entry, hc.data_length], ?_, hc.symbols,
    by simpa [LoadArg.entry] using hc.heap_length, ?_⟩
  · intro k id hk
    simp only [LoadArg.entry, DumpArg.ids_enter, Option.toList_none, List.append_nil]
    rcases Nat.lt_or_ge k D.data.length with hlt | hge
    · rw [List.getElem?_append_left hlt] at hk
      rw [List.getElem?_append_left (by rw [hc.data_length]; exact hlt), hc.data_ref k id hk]
    · rw [List.getElem?_append_right hge] at hk
      generalize k - D.data.length = j at hk
      cases j <;> simp at hk
  · have := hc.entries_le
    simp only [List.length_append, List.length_singleton]
    omega

/-- Entering a Symbol in both tables. -/
theorem Corr.addSymbol (hc : Corr pos D L) (s : RSym) :
    Corr (pos + 1) { D with symbols := D.symbols ++ [s] }
      { L with symbols := L.symbols ++ [s.entry] } := by
  refine ⟨hc.ids_nodup, hc.data_length, hc.data_ref, by simp [hc.symbols], hc.heap_length, ?_⟩
  have := hc.entries_le
  simp only [List.length_append, List.length_singleton]
  omega

/-- Both Symbol tables replaced, by the same Symbols. -/
theorem Corr.withSymbols (hc : Corr pos D L) (syms : List RSym) {pos' : ℕ}
    (hle : D.data.length + syms.length ≤ pos') :
    Corr pos' { D with symbols := syms } { L with symbols := syms.map RSym.entry } :=
  { hc with symbols := rfl, entries_le := hle }

/-- The object numbered `j` by the load is the dumped object it was made for, renumbered, and
the objects that one points to have been entered. -/
def Made (H : List Obj) (D : DumpArg) (L : LoadArg) (j : ℕ) : Prop :=
  ∃ i o, D.ids[j]? = some i ∧ H[i]? = some o ∧ (∀ r ∈ o.refs, r ∈ D.ids) ∧
    L.heap[j]? = some (o.mapRefs D.ids.idxOf)

theorem Val.mapRefs_of_prefix {l₁ l₂ : List ℕ} (h : l₁ <+: l₂) {v : Val}
    (hv : ∀ r ∈ v.refs, r ∈ l₁) : v.mapRefs l₂.idxOf = v.mapRefs l₁.idxOf := by
  cases v with
  | ref id => simp [Val.mapRefs, (h.idxOf_eq_of_mem (hv id (by simp [Val.refs]))).symm]
  | _ => rfl

theorem Obj.mapRefs_of_prefix {l₁ l₂ : List ℕ} (h : l₁ <+: l₂) {o : Obj}
    (ho : ∀ r ∈ o.refs, r ∈ l₁) : o.mapRefs l₂.idxOf = o.mapRefs l₁.idxOf := by
  cases o with
  | ary xs =>
    simp only [Obj.mapRefs, Obj.ary.injEq]
    refine List.map_congr_left fun x hx => Val.mapRefs_of_prefix h fun r hr => ho r ?_
    exact List.mem_flatMap.mpr ⟨x, hx, hr⟩
  | _ => rfl

/-- An object made stays made while the dump grows and the load leaves it alone. -/
theorem Made.mono {H : List Obj} {D' : DumpArg} {L' : LoadArg} {j : ℕ} (hm : Made H D L j)
    (hg : D.data <+: D'.data) (hj : L'.heap[j]? = L.heap[j]?) : Made H D' L' j := by
  obtain ⟨i, o, hi, ho, hrefs, hL⟩ := hm
  have hp : D.ids <+: D'.ids := hg.reduceOption
  have hlt : j < D.ids.length := (List.getElem?_eq_some_iff.mp hi).1
  refine ⟨i, o, ?_, ho, fun r hr => hp.subset (hrefs r hr), ?_⟩
  · obtain ⟨t, ht⟩ := hp
    rw [← ht, List.getElem?_append_left hlt, hi]
  · rw [hj, hL, Obj.mapRefs_of_prefix hp hrefs]

/-- What reading back `n` bytes of a dump, `pos` bytes in, does to the tables: they
correspond again, the dump's link table grew, the objects made before are untouched, and each
object made is a dumped one renumbered. -/
structure Steps (H : List Obj) (pos n : ℕ) (D D' : DumpArg) (L L' : LoadArg) : Prop where
  corr : Corr (pos + n) D' L'
  grows : D.data <+: D'.data
  heap_le : L.heap.length ≤ L'.heap.length
  frame : ∀ j < L.heap.length, L'.heap[j]? = L.heap[j]?
  fresh : ∀ j, L.heap.length ≤ j → j < L'.heap.length → Made H D' L' j

/-- Bytes that leave the tables as they were. -/
theorem Steps.of_corr {H : List Obj} {n : ℕ} (hc : Corr pos D L) : Steps H pos n D D L L where
  corr := hc.mono (Nat.le_add_right pos n)
  grows := List.prefix_refl _
  heap_le := le_rfl
  frame _ _ := rfl
  fresh _ h1 h2 := absurd h2 (not_lt.mpr h1)

end Tables

/-! ## The load's objects -/

section Objects

variable {L : LoadArg} {id j : ℕ} {x : Val}

@[simp] theorem LoadArg.push_data : (L.push id x).data = L.data := rfl

@[simp] theorem LoadArg.push_symbols : (L.push id x).symbols = L.symbols := rfl

@[simp] theorem LoadArg.push_heap_length : (L.push id x).heap.length = L.heap.length :=
  List.length_modify _ _ _

theorem LoadArg.push_heap_ne (h : j ≠ id) : (L.push id x).heap[j]? = L.heap[j]? := by
  simp [LoadArg.push, Ne.symm h]

theorem LoadArg.push_heap_self {xs : List Val} (h : L.heap[id]? = some (.ary xs)) :
    (L.push id x).heap[id]? = some (.ary (xs ++ [x])) := by
  simp [LoadArg.push, h]

/-- `rb_enc_associate_index` on a String the load made sets its encoding. -/
theorem LoadArg.associate_str {bs : List UInt8} {enc₀ : StrEnc} (enc : StrEnc)
    (h : L.heap[j]? = some (.str bs enc₀)) :
    L.associate (.ref j) enc = .ok { L with heap := L.heap.set j (.str bs enc) } := by
  rw [LoadArg.associate, h]

end Objects

/-! ## Symbols -/

section Symbols

theorem encodingName_eq_none {e : StrEnc} (h : encodingName e = none) : e = .ascii8bit := by
  cases e <;> simp_all [encodingName]

theorem encodingName_eq_some {e : StrEnc} {b : Bool} (h : encodingName e = some b) :
    e = if b then .utf8 else .usascii := by
  cases e <;> cases b <;> simp_all [encodingName]

/-- `rb_str_intern` of a Symbol's name and encoding is that Symbol. -/
theorem rbStrIntern_entry (s : RSym) : rbStrIntern s.entry.1 s.entry.2 = s := by
  obtain ⟨name, enc, ascii⟩ := s
  unfold rbStrIntern RSym.entry
  split_ifs with h
  · cases ascii h
    rfl
  · rfl

/-- The encoding `r_symreal` gives a name before its instance variables: the Symbol's own,
where the dump wrote none. -/
theorem symreal_enc_plain {sym : RSym}
    (h : isAsciiOnly sym.name = true ∨ encodingName sym.enc = none) :
    (if isAsciiOnly sym.name then StrEnc.usascii else .ascii8bit) = sym.enc := by
  by_cases ha : isAsciiOnly sym.name = true
  · rw [if_pos ha, sym.ascii ha]
  · rw [if_neg ha, encodingName_eq_none (h.resolve_left ha)]

/-- `sym2encidx` on `:E` and the flag `w_encoding` wrote: US-ASCII or UTF-8. -/
theorem sym2encidx_flag (e : Bool) :
    sym2encidx symE.entry (if e then .qtrue else .qfalse) =
      .ok (some (if e then .utf8 else .usascii)) := by
  cases e <;> rfl

variable {rSym : SymReader} {rObj : ObjReader} {L L₁ L₂ : LoadArg} {sym : RSym}
  {name one s s₁ s₂ rest : List UInt8}

/-- `r_symlink` on a number `w_long` wrote. -/
theorem rSymlink_of_wLong {num : ℕ} {lb : List UInt8} {p : List UInt8 × StrEnc}
    (hw : wLong (BitVec.ofNat 64 num) = .ok lb) (hnum : num < 2 ^ 63) (hp : L.symbols[num]? = some p) :
    rSymlink (lb ++ rest) L = .ok (p, rest) := by
  rw [rSymlink, rLong_append_of_wLong hw, Except.mapError_ok, Except.ok_bind]
  dsimp only
  rw [lookupIndex_ofNat _ hnum, hp]
  rfl

/-- `r_symreal` on a name the dump wrote without instance variables. -/
theorem rSymreal_plain (hw : wBytes sym.name = .ok name) (hlen : name.length < 2 ^ 63)
    (hplain : isAsciiOnly sym.name = true ∨ encodingName sym.enc = none) :
    rSymreal rSym rObj false (name ++ rest) L =
      .ok (sym.entry, rest, { L with symbols := L.symbols ++ [sym.entry] }) := by
  obtain ⟨len, hr, hb⟩ := wBytes_read hw hlen rest
  rw [rSymreal, hr, Except.mapError_ok, Except.ok_bind]
  dsimp only
  rw [hb, Except.mapError_ok, Except.ok_bind]
  dsimp only
  rw [symreal_enc_plain hplain]
  rfl

/-- `r_symreal` on a name the dump wrote with its encoding as an instance variable: the name
is entered as ASCII-8BIT, and then given the encoding that the loop reads. -/
theorem rSymreal_ivar (hw : wBytes sym.name = .ok name) (hlen : name.length < 2 ^ 63)
    (hna : isAsciiOnly sym.name = false) (hone : wLong 1 = .ok one)
    (hloop : rSymrealLoop rSym rObj 1 none s
      { L with symbols := L.symbols ++ [(sym.name, .ascii8bit)] } = .ok (some sym.enc, s₂, L₁)) :
    rSymreal rSym rObj true (name ++ (one ++ s)) L =
      .ok (sym.entry, s₂, { L₁ with symbols := L₁.symbols.set L.symbols.length sym.entry }) := by
  obtain ⟨len, hr, hb⟩ := wBytes_read hw hlen (one ++ s)
  rw [rSymreal, hr, Except.mapError_ok, Except.ok_bind]
  dsimp only
  rw [hb, Except.mapError_ok, Except.ok_bind]
  dsimp only
  rw [if_pos (rfl : true = true), if_neg (show ¬isAsciiOnly sym.name = true by simp [hna]),
    rLong_append_of_wLong hone, Except.mapError_ok, Except.ok_bind]
  dsimp only
  rw [show (1 : Long).toInt.toNat = 1 from rfl, hloop]
  rfl

theorem rSymrealLoop_one (idx₀ : Option StrEnc) {idx : Option StrEnc} {p : List UInt8 × StrEnc}
    {val : Val}
    {b : Bool} (hs : rSym s L = .ok (p, s₁, L₁)) (ho : rObj s₁ L₁ = .ok (val, b, s₂, L₂))
    (hx : sym2encidx p val = .ok idx) :
    rSymrealLoop rSym rObj 1 idx₀ s L = .ok (idx, s₂, L₂) := by
  rw [rSymrealLoop, hs, Except.ok_bind]
  dsimp only
  rw [ho, Except.ok_bind]
  dsimp only
  rw [hx, Except.ok_bind]
  rfl

theorem rIvar_one {obj : Val} (hone : wLong 1 = .ok one) :
    rIvar rSym rObj obj (one ++ s) L = rIvarLoop rSym rObj obj 1 s L := by
  rw [rIvar, rLong_append_of_wLong hone, Except.mapError_ok, Except.ok_bind]
  rfl

theorem rIvarLoop_one {obj : Val} {p : List UInt8 × StrEnc} {val : Val} {b : Bool}
    {enc : StrEnc} {L₃ : LoadArg} (hs : rSym s L = .ok (p, s₁, L₁))
    (ho : rObj s₁ L₁ = .ok (val, b, s₂, L₂)) (hx : sym2encidx p val = .ok (some enc))
    (ha : L₂.associate obj enc = .ok L₃) :
    rIvarLoop rSym rObj obj 1 s L = .ok (s₂, L₃) := by
  rw [rIvarLoop, hs, Except.ok_bind]
  dsimp only
  rw [ho, Except.ok_bind]
  dsimp only
  rw [hx, Except.ok_bind]
  dsimp only
  rw [ha, Except.ok_bind]
  rfl

/-- The flag of `w_encoding` reads back. -/
theorem rObject0_flag (f : ℕ) (ivp e : Bool) (rest : List UInt8) (L : LoadArg) :
    rObject0 (f + 1) ivp ((if e then typeTrue else typeFalse) :: rest) L =
      .ok (if e then .qtrue else .qfalse, ivp, rest, L) := by
  cases e
  · exact (rObject0_cons f ivp _ rest L).trans rObjectSwitch_false
  · exact (rObject0_cons f ivp _ rest L).trans rObjectSwitch_true

end Symbols

/-! ## Reading back what the dump wrote -/

section Load

variable {H : List Obj} {d pos f : ℕ} {D D' : DumpArg} {L : LoadArg} {bs : List UInt8}

/-- A reader given at least as much fuel as it has bytes to read takes one level. -/
theorem exists_succ_of_length_le {n f : ℕ} (h : n + 1 ≤ f) : ∃ f', f = f' + 1 :=
  ⟨f - 1, by omega⟩

/-- Bytes after which the load has made no object. -/
theorem Steps.of_heap {n : ℕ} {L' : LoadArg} (hc : Corr (pos + n) D' L')
    (hg : D.data <+: D'.data) (hh : L'.heap = L.heap) : Steps H pos n D D' L L' where
  corr := hc
  grows := hg
  heap_le := hh ▸ le_rfl
  frame _ _ := by rw [hh]
  fresh _ h1 h2 := absurd (hh ▸ h2) (not_lt.mpr h1)

/-- `:E`, as `w_encoding` writes it, read by `r_symbol`: a link to the `:E` written before, or
the name, entered now in both tables. The load's table has to hold `:E` only where the dump's
does, which still holds while the Symbol that the encoding is for waits for it. -/
theorem wSymbol_symE_read {wObj : Val → ℤ → DumpArg → Except DumpError (List UInt8 × DumpArg)}
    {k : ℕ} (hw : wSymbol wObj k symE D = .ok (bs, D'))
    (hlen : L.symbols.length = D.symbols.length)
    (hE : ∀ num : ℕ, D.symbols[num]? = some symE → L.symbols[num]? = some symE.entry)
    (hcap : D.symbols.length + bs.length < 2 ^ 63) (hf : bs.length ≤ f) (rest : List UInt8) :
    ∃ new : List RSym, D' = { D with symbols := D.symbols ++ new } ∧ new.length ≤ 1 ∧
      rSymbol f false (bs ++ rest) L =
        .ok (symE.entry, rest, { L with symbols := L.symbols ++ new.map RSym.entry }) := by
  obtain ⟨k, rfl⟩ : ∃ k', k = k' + 1 := by
    cases k with
    | zero => cases hw
    | succ k => exact ⟨k, rfl⟩
  rcases wSymbol_ok hw with ⟨num, lb, hnum, hlb, rfl, rfl⟩ | ⟨-, name, hname, hplain | hivar⟩
  · -- a link to the `:E` written before
    obtain ⟨f, rfl⟩ := exists_succ_of_length_le (n := lb.length) (by simpa using hf)
    obtain ⟨hlt, hget, -⟩ := List.idxOf?_eq_some_iff.mp hnum
    refine ⟨[], by rw [List.append_nil], Nat.zero_le 1, ?_⟩
    rw [List.cons_append, rSymbol_cons, rSymbolSwitch_symlink
      (rSymlink_of_wLong hlb (by omega) (hE num (List.getElem?_eq_some_iff.mpr ⟨hlt, hget⟩)))]
    simp
  · obtain ⟨-, rfl, rfl⟩ := hplain
    obtain ⟨f, rfl⟩ := exists_succ_of_length_le (n := name.length) (by simpa using hf)
    refine ⟨[symE], rfl, by simp, ?_⟩
    rw [List.cons_append, rSymbol_cons,
      rSymbolSwitch_symbol (rSymreal_plain hname (by simp at hcap; omega) (.inl rfl))]
    rfl
  · obtain ⟨e, one, enc, hna, -⟩ := hivar
    exact absurd hna (by decide)

/-- A Symbol whose name has its encoding as an instance variable, read by `r_object0`: after
`TYPE_IVAR` and `TYPE_SYMBOL`, `r_symreal` enters the name as ASCII-8BIT, reads `:E` and the
flag, and gives the name the encoding they name. -/
theorem wSymbol_ivar_load {sym : RSym} {k : ℕ} {name one enc : List UInt8} {e : Bool}
    (hname : wBytes sym.name = .ok name) (hna : isAsciiOnly sym.name = false)
    (he : encodingName sym.enc = some e) (hone : wLong 1 = .ok one)
    (henc : wEncoding (wObject H d) (wSymbol (wObject H d) k) 1 e
      { D with symbols := D.symbols ++ [sym] } = .ok (enc, D'))
    (hc : Corr pos D L) (hcap : pos + (typeIvar :: typeSymbol :: name ++ one ++ enc).length < 2 ^ 63)
    (hf : (typeIvar :: typeSymbol :: name ++ one ++ enc).length ≤ f) (rest : List UInt8) :
    ∃ L', rObject0 f false ((typeIvar :: typeSymbol :: name ++ one ++ enc) ++ rest) L =
        .ok (.sym sym, false, rest, L') ∧
      Steps H pos (typeIvar :: typeSymbol :: name ++ one ++ enc).length D D' L L' := by
  obtain ⟨esym, hesym, rfl⟩ := wEncoding_ok henc
  have hle := hc.entries_le
  simp only [List.length_append, List.length_cons, List.length_nil] at hcap hf ⊢
  -- while `:E` is read, the load's table holds the name as ASCII-8BIT where the dump's holds
  -- the Symbol, which is not `:E`
  have hE : ∀ num : ℕ, (D.symbols ++ [sym])[num]? = some symE →
      (L.symbols ++ [(sym.name, StrEnc.ascii8bit)])[num]? = some symE.entry := by
    intro num hnum
    have hlt : num < D.symbols.length := by
      by_contra hge
      rw [List.getElem?_append_right (by omega)] at hnum
      generalize num - D.symbols.length = j at hnum
      cases j with
      | zero =>
        obtain rfl : sym = symE := by simpa using hnum
        exact absurd hna (by decide)
      | succ j => simp at hnum
    rw [List.getElem?_append_left hlt] at hnum
    rw [List.getElem?_append_left (by rw [hc.symbols, List.length_map]; exact hlt), hc.symbols,
      List.getElem?_map, hnum]
    rfl
  obtain ⟨f, rfl⟩ : ∃ f', f = f' + 2 := ⟨f - 2, by omega⟩
  obtain ⟨new, rfl, hnew, hread⟩ := wSymbol_symE_read (f := f)
    (L := { L with symbols := L.symbols ++ [(sym.name, .ascii8bit)] }) hesym
    (by simp [hc.symbols]) hE (by simp; omega) (by omega)
    ((if e then typeTrue else typeFalse) :: rest)
  obtain ⟨f, rfl⟩ := exists_succ_of_length_le (n := esym.length) (f := f) (by omega)
  have hloop := rSymrealLoop_one none hread (rObject0_flag f false e rest _)
    (sym2encidx_flag e)
  rw [← encodingName_eq_some he] at hloop
  have hreal := rSymreal_ivar hname (by omega) hna hone hloop
  refine ⟨{ L with symbols := (D.symbols ++ [sym] ++ new).map RSym.entry }, ?_,
    Steps.of_heap (hc.withSymbols _ (by simp; omega)) (List.prefix_refl _) rfl⟩
  simp only [List.cons_append, List.append_assoc, List.nil_append]
  rw [rObject0_cons, rObjectSwitch_ivar_taken]
  rw [rObject0_cons, rObjectSwitch_symbol hreal, rbStrIntern_entry]
  simp [hc.symbols, RSym.entry]

/-- **A Symbol reads back.** Whichever of its three forms `w_symbol` wrote, `r_object0` reads
the Symbol, and enters in its table what the dump entered in its own. -/
theorem wSymbol_load {k : ℕ} {sym : RSym} (hw : wSymbol (wObject H d) k sym D = .ok (bs, D'))
    (hc : Corr pos D L) (hcap : pos + bs.length < 2 ^ 63) (hf : bs.length ≤ f)
    (rest : List UInt8) :
    ∃ L', rObject0 f false (bs ++ rest) L = .ok (.sym sym, false, rest, L') ∧
      Steps H pos bs.length D D' L L' ∧ 0 < bs.length := by
  obtain ⟨k, rfl⟩ : ∃ k', k = k' + 1 := by
    cases k with
    | zero => cases hw
    | succ k => exact ⟨k, rfl⟩
  have hle := hc.entries_le
  rcases wSymbol_ok hw with ⟨num, lb, hnum, hlb, rfl, rfl⟩ |
    ⟨-, name, hname, ⟨hplain, rfl, rfl⟩ | ⟨e, one, enc, hna, he, hone, henc, rfl⟩⟩
  · -- a link to a Symbol written before
    obtain ⟨hlt, hget, -⟩ := List.idxOf?_eq_some_iff.mp hnum
    obtain ⟨f, rfl⟩ := exists_succ_of_length_le (n := lb.length) (f := f) (by simpa using hf)
    have hp : L.symbols[num]? = some sym.entry := by
      rw [hc.symbols, List.getElem?_map, List.getElem?_eq_some_iff.mpr ⟨hlt, hget⟩]
      rfl
    refine ⟨L, ?_, Steps.of_heap (hc.mono (by omega)) (List.prefix_refl _) rfl, by simp⟩
    simp only [List.length_cons] at hcap
    rw [List.cons_append, rObject0_cons,
      rObjectSwitch_symlink (rSymlink_of_wLong hlb (by omega) hp), rbStrIntern_entry]
  · -- the name, entered now in both tables
    simp only [List.length_cons] at hcap hf
    obtain ⟨f, rfl⟩ := exists_succ_of_length_le (n := name.length) (f := f) hf
    refine ⟨_, ?_, Steps.of_heap ((hc.addSymbol sym).mono (by simp)) (List.prefix_refl _) rfl, by simp⟩
    rw [List.cons_append, rObject0_cons,
      rObjectSwitch_symbol (rSymreal_plain hname (by omega) hplain), rbStrIntern_entry]
  · -- the name and its encoding
    obtain ⟨L', hload, hsteps⟩ := wSymbol_ivar_load hname hna he hone henc hc hcap hf rest
    exact ⟨L', hload, hsteps, by simp⟩

/-- An object entered now is numbered after those entered before, by the dump as by the
load, and keeps that number as the dump grows. -/
theorem Corr.idxOf_entered {id : ℕ} (hc : Corr pos D L) (hnew : D.data.idxOf? (some id) = none)
    (hg : D.data ++ [some id] <+: D'.data) :
    D'.ids.idxOf id = L.heap.length ∧ D'.ids[L.heap.length]? = some id := by
  have hid : id ∉ D.ids := fun h => List.idxOf?_eq_none_iff.mp hnew (DumpArg.mem_ids.mp h)
  have hp : D.ids ++ [id] <+: D'.ids := by
    simpa [DumpArg.ids, List.reduceOption_append] using hg.reduceOption
  obtain ⟨t, ht⟩ := hp
  rw [hc.heap_length, ← ht]
  constructor
  · rw [List.idxOf_append_of_mem (by simp), List.idxOf_append_of_notMem hid]
    simp
  · simp

/-- The load made, as its next object, the object the dump entered. -/
theorem Made.entered {id : ℕ} {o : Obj} {L' : LoadArg} (hc : Corr pos D L)
    (hnew : D.data.idxOf? (some id) = none) (hg : D.data ++ [some id] <+: D'.data)
    (ho : H[id]? = some o) (hrefs : ∀ r ∈ o.refs, r ∈ D'.ids)
    (hL : L'.heap[L.heap.length]? = some (o.mapRefs D'.ids.idxOf)) :
    Made H D' L' L.heap.length :=
  ⟨id, o, (hc.idxOf_entered hnew hg).2, ho, hrefs, hL⟩

theorem LoadArg.alloc_entry_heap (o : Obj) (v : Val) :
    ((L.alloc o).2.entry v).heap = L.heap ++ [o] := rfl

/-- A Bignum or a String that the load makes whole: the next object. -/
theorem Steps.entered {id n : ℕ} {o : Obj} (hc : Corr pos D L)
    (hnew : D.data.idxOf? (some id) = none) (ho : H[id]? = some o) (hn : 1 ≤ n)
    (hrefs : o.refs = []) (hmap : ∀ φ, o.mapRefs φ = o) :
    Steps H pos n D { D with data := D.data ++ [some id] } L
      ((L.alloc o).2.entry (.ref L.heap.length)) where
  corr := (hc.enterRef hnew o).mono (by omega)
  grows := List.prefix_append _ _
  heap_le := by simp [LoadArg.alloc_entry_heap]
  frame j hj := by rw [LoadArg.alloc_entry_heap, List.getElem?_append_left hj]
  fresh j h1 h2 := by
    rw [LoadArg.alloc_entry_heap, List.length_append, List.length_singleton] at h2
    obtain rfl : j = L.heap.length := by omega
    refine Made.entered hc hnew (List.prefix_refl _) ho (by simp [hrefs]) ?_
    rw [LoadArg.alloc_entry_heap, List.getElem?_concat_length, hmap]

variable {limit₀ limit : ℤ} {id : ℕ}

/-- A Bignum of the heap reads back as a Bignum that the load makes. -/
theorem wObject_bignum_load {n : ℤ} (hn : (RInteger.bignum n).Canonical)
    (hnew : D.data.idxOf? (some id) = none) (ho : H[id]? = some (.bignum n))
    (hw : wObjectBignum limit₀ n = .ok bs) (hc : Corr pos D L) (hf : bs.length ≤ f)
    (rest : List UInt8) :
    ∃ L', rObject0 f false (bs ++ rest) L = .ok (.ref L.heap.length, false, rest, L') ∧
      Steps H pos bs.length D { D with data := D.data ++ [some id] } L L' := by
  -- a canonical Bignum is not fixable, so not zero, and `bignorm` keeps it
  have hn0 : n ≠ 0 := by
    rintro rfl
    exact absurd (show fixableP 0 = false from hn) (by decide)
  obtain ⟨bs', rfl, hread⟩ := wObjectBignum_ok_load hn0 hw
  rw [bignorm, if_neg (by simpa [RInteger.Canonical] using hn)] at hread
  obtain ⟨f, rfl⟩ := exists_succ_of_length_le (n := bs'.length) (f := f) (by simpa using hf)
  refine ⟨_, ?_, Steps.entered hc hnew ho (by simp) rfl fun _ => rfl⟩
  rw [List.cons_append, rObject0_cons, rObjectSwitch_bignum (hread rest)]

/-- A String of ASCII-8BIT reads back as a String that the load makes. -/
theorem wObject_str_load {b wb : List UInt8} (hnew : D.data.idxOf? (some id) = none)
    (ho : H[id]? = some (.str b .ascii8bit)) (hw : wBytes b = .ok wb) (hc : Corr pos D L)
    (hcap : pos + (typeString :: wb).length < 2 ^ 63) (hf : (typeString :: wb).length ≤ f)
    (rest : List UInt8) :
    ∃ L', rObject0 f false ((typeString :: wb) ++ rest) L = .ok (.ref L.heap.length, false, rest, L') ∧
      Steps H pos (typeString :: wb).length D { D with data := D.data ++ [some id] } L L' := by
  simp only [List.length_cons] at hcap hf
  obtain ⟨len, hr, hb⟩ := wBytes_read hw (by omega) rest
  obtain ⟨f, rfl⟩ := exists_succ_of_length_le (n := wb.length) (f := f) hf
  refine ⟨_, ?_, Steps.entered hc hnew ho (by simp) rfl fun _ => rfl⟩
  rw [List.cons_append, rObject0_cons, rObjectSwitch_string hr hb]

/-- A String of US-ASCII or UTF-8 reads back: after `TYPE_IVAR`, the load makes the String as
ASCII-8BIT, and `r_ivar` reads `:E` and the flag and gives the String the encoding they name. -/
theorem wObject_str_ivar_load {b wb iv : List UInt8} {enc : StrEnc} {e : Bool} {limit' : ℤ}
    (hnew : D.data.idxOf? (some id) = none) (ho : H[id]? = some (.str b enc))
    (he : encodingName enc = some e) (hw : wBytes b = .ok wb)
    (hiv : wIvar (wObject H d) (wSymbol (wObject H d) d) limit' e
      { D with data := D.data ++ [some id] } = .ok (iv, D'))
    (hc : Corr pos D L) (hcap : pos + (typeIvar :: typeString :: wb ++ iv).length < 2 ^ 63)
    (hf : (typeIvar :: typeString :: wb ++ iv).length ≤ f) (rest : List UInt8) :
    ∃ L', rObject0 f false ((typeIvar :: typeString :: wb ++ iv) ++ rest) L =
        .ok (.ref L.heap.length, false, rest, L') ∧
      Steps H pos (typeIvar :: typeString :: wb ++ iv).length D D' L L' ∧
      D.data ++ [some id] <+: D'.data := by
  obtain ⟨one, encb, hone, henc, rfl⟩ := wIvar_ok hiv
  obtain ⟨esym, hesym, rfl⟩ := wEncoding_ok henc
  have hc₁ := hc.enterRef hnew (.str b .ascii8bit)
  have hle := hc₁.entries_le
  simp only [List.length_append, List.length_cons, List.length_nil] at hcap hf hle ⊢
  obtain ⟨len, hr, hbytes⟩ := wBytes_read hw (by omega)
    (one ++ (esym ++ (if e then typeTrue else typeFalse) :: rest))
  obtain ⟨f, rfl⟩ : ∃ f', f = f' + 2 := ⟨f - 2, by omega⟩
  -- `:E`, read against the tables as they stand once the String is entered
  obtain ⟨new, rfl, hnew1, hread⟩ := wSymbol_symE_read
    (L := (L.alloc (.str b .ascii8bit)).2.entry (.ref L.heap.length)) (f := f + 1) hesym
    (by simp [hc₁.symbols])
    (fun num h => by rw [hc₁.symbols, List.getElem?_map, h]; rfl) (by simp; omega) (by omega)
    ((if e then typeTrue else typeFalse) :: rest)
  have ha := LoadArg.associate_str enc (show ({ (L.alloc (.str b .ascii8bit)).2.entry
      (.ref L.heap.length) with symbols := ((L.alloc (.str b .ascii8bit)).2.entry
        (.ref L.heap.length)).symbols ++ new.map RSym.entry } : LoadArg).heap[L.heap.length]? =
      some (.str b .ascii8bit) by simp [LoadArg.alloc_entry_heap])
  have hx : sym2encidx symE.entry (if e then .qtrue else .qfalse) = .ok (some enc) := by
    rw [sym2encidx_flag, encodingName_eq_some he]
  have hloop := rIvarLoop_one hread (rObject0_flag f false e rest _) hx ha
  refine ⟨?_, ?_, ?_, List.prefix_refl _⟩
  rotate_left
  · simp only [List.cons_append, List.append_assoc, List.nil_append]
    rw [rObject0_cons, rObjectSwitch_ivar (by rw [rObject0_cons, rObjectSwitch_string hr hbytes])
      (by rw [rIvar_one hone]; exact hloop)]
  · have hheap : ∀ j < L.heap.length,
        ((L.heap ++ [Obj.str b .ascii8bit]).set L.heap.length (.str b enc))[j]? = L.heap[j]? := by
      intro j hj
      rw [List.getElem?_set_ne (by omega), List.getElem?_append_left hj]
    refine ⟨?_, List.prefix_append _ _, by simp [LoadArg.alloc_entry_heap], ?_, ?_⟩
    · refine (hc₁.withSymbols (D.symbols ++ new) (by simp; omega)).of_heap rfl ?_ ?_
      · simp [LoadArg.entry, LoadArg.alloc, hc.symbols]
      · simp [LoadArg.entry, LoadArg.alloc]
    · intro j hj
      exact hheap j hj
    · intro j h1 h2
      simp only [LoadArg.entry, LoadArg.alloc, List.length_set, List.length_append,
        List.length_singleton] at h2
      obtain rfl : j = L.heap.length := by omega
      refine Made.entered hc hnew (List.prefix_refl _) ho (by simp [Obj.refs]) ?_
      simp [LoadArg.entry, LoadArg.alloc, Obj.mapRefs]

/-- A Fixnum reads back: in `'i'` and its `w_long`, or, outside 32 bits, as the Bignum that
`rb_int2big` made, which the load enters as the Fixnum again. -/
theorem wObject_fixnum_load {v : Value} (hv : fixnumP v = true)
    (hw : wObject H (d + 1) (.fixnum v) limit D = .ok (bs, D')) (hc : Corr pos D L)
    (hf : bs.length ≤ f) (rest : List UInt8) :
    ∃ L', rObject0 f false (bs ++ rest) L = .ok (.fixnum v, false, rest, L') ∧
      Steps H pos bs.length D D' L L' ∧ 0 < bs.length := by
  obtain ⟨limit', -, ⟨hg, lb, hlb, rfl, rfl⟩ | ⟨hg, hb, rfl⟩⟩ := wObject_fixnum hw
  · obtain ⟨f, rfl⟩ := exists_succ_of_length_le (n := lb.length) (f := f) (by simpa using hf)
    refine ⟨L, ?_, Steps.of_corr hc, by simp⟩
    rw [List.cons_append, rObject0_cons, rObjectSwitch_fixnum (rLong_append_of_wLong hlb rest),
      long2fix_fix2long hv]
  · -- outside 32 bits the value is not zero, and `bignorm` makes the Fixnum again
    have hn : (rbInt2big (fix2long v)).val ≠ 0 := by
      have hrange := mt (wLong_guard_iff v).mpr hg
      have hv2 := toInt_fix2long v
      rw [rbInt2big, RInteger.val]
      omega
    obtain ⟨bs', rfl, hread⟩ := wObjectBignum_ok_load hn hb
    rw [rbInt2big, RInteger.val, bignorm, if_pos (fixableP_fix2long v), BitVec.ofInt_toInt,
      long2fix_fix2long hv] at hread
    obtain ⟨f, rfl⟩ := exists_succ_of_length_le (n := bs'.length) (f := f) (by simpa using hf)
    refine ⟨L.entry (.fixnum v), ?_, Steps.of_heap ((hc.enterNone _).mono (by simp))
      (List.prefix_append _ _) rfl, by simp⟩
    rw [List.cons_append, rObject0_cons, rObjectSwitch_bignum_fixnum (hread rest)]

/-- What reading back a value that `w_object` writes with `d` levels does: `r_object0` reads
the value with its references renumbered, the tables correspond again, and the objects the value
points to have been entered. -/
def Simulates (H : List Obj) (d : ℕ) : Prop :=
  ∀ ⦃v : Val⦄ ⦃limit : ℤ⦄ ⦃D D' : DumpArg⦄ ⦃bs : List UInt8⦄, v.Canonical →
    wObject H d v limit D = .ok (bs, D') →
    ∀ ⦃pos f : ℕ⦄ ⦃L : LoadArg⦄, Corr pos D L → pos + bs.length < 2 ^ 63 → bs.length ≤ f →
    ∀ rest : List UInt8, ∃ L', rObject0 f false (bs ++ rest) L =
        .ok (v.mapRefs D'.ids.idxOf, false, rest, L') ∧
      Steps H pos bs.length D D' L L' ∧ (∀ r ∈ v.refs, r ∈ D'.ids) ∧ 0 < bs.length

/-- What reading back the elements of an Array does to the Array numbered `id` that the load
has made: each element, renumbered, is pushed onto it, and the objects made on the way are the
dumped ones renumbered. -/
structure Fills (H : List Obj) (pos n : ℕ) (D D' : DumpArg) (L L' : LoadArg) (id : ℕ)
    (pre xs : List Val) : Prop where
  corr : Corr (pos + n) D' L'
  grows : D.data <+: D'.data
  heap_le : L.heap.length ≤ L'.heap.length
  frame : ∀ j < L.heap.length, j ≠ id → L'.heap[j]? = L.heap[j]?
  filled : L'.heap[id]? = some (.ary (pre ++ xs.map (Val.mapRefs D'.ids.idxOf)))
  fresh : ∀ j, L.heap.length ≤ j → j < L'.heap.length → Made H D' L' j
  refs : ∀ x ∈ xs, ∀ r ∈ x.refs, r ∈ D'.ids
  length_le : xs.length ≤ n

theorem rElems_succ {robj : ObjReader} {k : ℕ} {s s₁ : List UInt8} {L₁ : LoadArg} {x : Val}
    {b : Bool} (h : robj s L = .ok (x, b, s₁, L₁)) :
    rElems robj id (k + 1) s L = rElems robj id k s₁ (L₁.push id x) := by
  rw [rElems, h]
  rfl

/-- **The elements of an Array read back**, one after another, each by the level below. -/
theorem wElems_load (ih : Simulates H d) {limit : ℤ} {xs : List Val} :
    ∀ {D D' : DumpArg} {bs : List UInt8} {pos f : ℕ} {L : LoadArg} {pre : List Val},
    (∀ x ∈ xs, x.Canonical) → wElems (fun x => wObject H d x limit) xs D = .ok (bs, D') →
    Corr pos D L → pos + bs.length < 2 ^ 63 → bs.length ≤ f → id < L.heap.length →
    L.heap[id]? = some (.ary pre) → ∀ rest : List UInt8,
    ∃ L', rElems (rObject0 f false) id xs.length (bs ++ rest) L = .ok (rest, L') ∧
      Fills H pos bs.length D D' L L' id pre xs := by
  induction xs with
  | nil =>
    intro D D' bs pos f L pre _ hw hc _ _ _ hary rest
    cases hw
    exact ⟨L, rfl, hc, List.prefix_refl _, le_rfl, fun _ _ _ => rfl, by simpa using hary,
      fun _ h1 h2 => absurd h2 (not_lt.mpr h1), by simp, le_rfl⟩
  | cons x xs ihxs =>
    intro D D' bs pos f L pre hxs hw hc hcap hf hid hary rest
    obtain ⟨b, D₁, bs', hb, hbs, rfl⟩ := wElems_cons hw
    simp only [List.length_append] at hcap hf
    -- the element, by the level below; then its value is pushed onto the Array
    obtain ⟨L₁, hread, hsteps, hrefs, hpos⟩ :=
      ih (f := f) (hxs x List.mem_cons_self) hb hc (by omega) (by omega) (bs' ++ rest)
    have hid₁ : id < L₁.heap.length := lt_of_lt_of_le hid hsteps.heap_le
    have hary₁ : (L₁.push id (x.mapRefs D₁.ids.idxOf)).heap[id]? =
        some (.ary (pre ++ [x.mapRefs D₁.ids.idxOf])) :=
      LoadArg.push_heap_self (by rw [hsteps.frame id hid, hary])
    obtain ⟨L₂, hrest, hfills⟩ := ihxs (L := L₁.push id (x.mapRefs D₁.ids.idxOf)) (f := f)
      (fun y hy => hxs y (List.mem_cons_of_mem x hy)) hbs
      (hsteps.corr.of_heap rfl rfl (by simp)) (by omega) (by omega) (by simpa using hid₁)
      hary₁ rest
    have hp : D₁.ids <+: D'.ids := hfills.grows.reduceOption
    refine ⟨L₂, ?_, ?_⟩
    · rw [List.length_cons, List.append_assoc, rElems_succ hread, hrest]
    · refine ⟨by simpa [Nat.add_assoc] using hfills.corr, hsteps.grows.trans hfills.grows,
        hsteps.heap_le.trans (by simpa using hfills.heap_le), ?_, ?_, ?_, ?_, ?_⟩
      · intro j hj hne
        have := hsteps.heap_le
        rw [hfills.frame j (by simp; omega) hne, LoadArg.push_heap_ne hne, hsteps.frame j hj]
      · rw [hfills.filled, ← Val.mapRefs_of_prefix hp hrefs]
        simp
      · intro j h1 h2
        by_cases hj : j < L₁.heap.length
        · refine (hsteps.fresh j h1 hj).mono hfills.grows ?_
          rw [hfills.frame j (by simpa using hj) (by omega), LoadArg.push_heap_ne (by omega)]
        · exact hfills.fresh j (by simpa using not_lt.mp hj) h2
      · intro y hy
        rcases List.mem_cons.mp hy with rfl | hy
        · exact fun r hr => hp.subset (hrefs r hr)
        · exact hfills.refs y hy
      · have := hfills.length_le
        simp only [List.length_cons, List.length_append]
        omega

/-- An Array of the heap reads back: the load makes an empty Array, enters it, and pushes each
element onto it. -/
theorem wObject_ary_load (ih : Simulates H d) {xs : List Val} {lb es : List UInt8} {limit' : ℤ}
    (hxs : (Obj.ary xs).Canonical) (hnew : D.data.idxOf? (some id) = none)
    (ho : H[id]? = some (.ary xs)) (hlb : wLong (BitVec.ofNat 64 xs.length) = .ok lb)
    (hes : wElems (fun x => wObject H d x limit') xs { D with data := D.data ++ [some id] } =
      .ok (es, D'))
    (hc : Corr pos D L) (hcap : pos + (typeArray :: lb ++ es).length < 2 ^ 63)
    (hf : (typeArray :: lb ++ es).length ≤ f) (rest : List UInt8) :
    ∃ L', rObject0 f false ((typeArray :: lb ++ es) ++ rest) L =
        .ok (.ref L.heap.length, false, rest, L') ∧
      Steps H pos (typeArray :: lb ++ es).length D D' L L' ∧ D.data ++ [some id] <+: D'.data := by
  simp only [List.length_cons, List.length_append] at hcap hf ⊢
  obtain ⟨f, rfl⟩ := exists_succ_of_length_le (n := lb.length + es.length) (f := f) (by omega)
  obtain ⟨L₂, hread, hfills⟩ := wElems_load (f := f) ih hxs hes
    ((hc.enterRef hnew (.ary [])).mono (Nat.le_add_right _ lb.length)) (by omega) (by omega)
    (show L.heap.length < ((L.alloc (.ary [])).2.entry (.ref L.heap.length)).heap.length by
      simp [LoadArg.alloc_entry_heap])
    (show ((L.alloc (.ary [])).2.entry (.ref L.heap.length)).heap[L.heap.length]? = some (.ary [])
      by simp [LoadArg.alloc_entry_heap]) rest
  -- the elements took a byte each, so the length is a `long` that `w_long` wrote
  have hlen : xs.length < 2 ^ 63 := by
    have := hfills.length_le
    omega
  have hrange := wLong_ok_range hlb
  rw [toInt_ofNat_of_lt hlen] at hrange
  refine ⟨L₂, ?_, ?_, (List.prefix_refl _).trans hfills.grows⟩
  · simp only [List.cons_append, List.append_assoc]
    rw [rObject0_cons, rObjectSwitch_array (rLong_append_of_wLong hlb _) (by rw [toInt_ofNat_of_lt hlen]; omega)
        (by rw [toInt_ofNat_of_lt hlen, aryMaxSize]; omega)
        (by rw [toNat_ofNat_of_lt hlen]; exact hread)]
  · have hle := hfills.heap_le
    simp only [LoadArg.alloc_entry_heap, List.length_append, List.length_singleton] at hle
    refine ⟨hfills.corr.mono (by omega), (List.prefix_append _ _).trans hfills.grows, by omega,
      ?_, ?_⟩
    · intro j hj
      rw [hfills.frame j (by simp [LoadArg.alloc_entry_heap]; omega) (by omega),
        LoadArg.alloc_entry_heap, List.getElem?_append_left hj]
    · intro j h1 h2
      by_cases hj : j = L.heap.length
      · subst hj
        refine Made.entered hc hnew hfills.grows ho ?_ (by simpa [Obj.mapRefs] using hfills.filled)
        intro r hr
        obtain ⟨x, hx, hrx⟩ := List.mem_flatMap.mp hr
        exact hfills.refs x hx r hrx
      · exact hfills.fresh j (by simp [LoadArg.alloc_entry_heap]; omega) h2

/-- A heap object met for the first time reads back as the object the load makes next: a
Bignum, a String with or without its encoding, or an Array. -/
theorem wObject_new_load (hH : ∀ o ∈ H, o.Canonical) (ih : Simulates H d) {o : Obj}
    {body : List UInt8} {D₁ : DumpArg} {limit' : ℤ} (hnew : D.data.idxOf? (some id) = none)
    (ho : H[id]? = some o)
    (hbody : wObjectBody (fun x => wObject H d x limit') limit o
      { D with data := D.data ++ [some id] } = .ok (body, D₁))
    (hivar : (o.encodingName = none ∧ bs = body ∧ D' = D₁) ∨
      (∃ e iv, o.encodingName = some e ∧
        wIvar (wObject H d) (wSymbol (wObject H d) d) limit' e D₁ = .ok (iv, D') ∧
        bs = typeIvar :: body ++ iv))
    (hc : Corr pos D L) (hcap : pos + bs.length < 2 ^ 63) (hf : bs.length ≤ f)
    (rest : List UInt8) :
    ∃ L', rObject0 f false (bs ++ rest) L = .ok (.ref L.heap.length, false, rest, L') ∧
      Steps H pos bs.length D D' L L' ∧ D.data ++ [some id] <+: D'.data ∧ 0 < bs.length := by
  have hcan := hH o (List.mem_of_getElem? ho)
  cases o with
  | bignum n =>
    obtain ⟨hb, rfl⟩ := wObjectBody_bignum hbody
    obtain ⟨-, rfl, rfl⟩ | ⟨e, iv, he, -⟩ := hivar
    · obtain ⟨L', hload, hsteps⟩ := wObject_bignum_load hcan hnew ho hb hc hf rest
      obtain ⟨bs', rfl, -⟩ := wObjectBignum_ok_load (by
        rintro rfl
        exact absurd (show fixableP 0 = false from hcan) (by decide)) hb
      exact ⟨L', hload, hsteps, List.prefix_refl _, by simp⟩
    · cases he
  | str b enc =>
    obtain ⟨wb, hwb, rfl, rfl⟩ := wObjectBody_str hbody
    obtain ⟨he, rfl, rfl⟩ | ⟨e, iv, he, hiv, rfl⟩ := hivar
    · rw [encodingName_eq_none he] at ho
      obtain ⟨L', hload, hsteps⟩ := wObject_str_load hnew ho hwb hc hcap hf rest
      exact ⟨L', hload, hsteps, List.prefix_refl _, by simp⟩
    · obtain ⟨L', hload, hsteps, hg⟩ := wObject_str_ivar_load hnew ho he hwb hiv hc hcap hf rest
      exact ⟨L', hload, hsteps, hg, by simp⟩
  | ary xs =>
    obtain ⟨lb, es, hlb, hes, rfl⟩ := wObjectBody_ary hbody
    obtain ⟨-, rfl, rfl⟩ | ⟨e, iv, he, -⟩ := hivar
    · obtain ⟨L', hload, hsteps, hg⟩ := wObject_ary_load ih hcan hnew ho hlb hes hc hcap hf rest
      exact ⟨L', hload, hsteps, hg, by simp⟩
    · cases he

/-- A reference reads back as the object made for it: by a link to one made before, or as the
object, made now. -/
theorem wObject_ref_load (hH : ∀ o ∈ H, o.Canonical) (ih : Simulates H d)
    (hw : wObject H (d + 1) (.ref id) limit D = .ok (bs, D')) (hc : Corr pos D L)
    (hcap : pos + bs.length < 2 ^ 63) (hf : bs.length ≤ f) (rest : List UInt8) :
    ∃ L', rObject0 f false (bs ++ rest) L = .ok (.ref (D'.ids.idxOf id), false, rest, L') ∧
      Steps H pos bs.length D D' L L' ∧ id ∈ D'.ids ∧ 0 < bs.length := by
  obtain ⟨limit', -, ⟨num, lb, hnum, hlb, rfl, rfl⟩ | ⟨hnew, o, ho, body, D₁, hbody, hivar⟩⟩ :=
    wObject_ref hw
  · -- a link to the object made for it before
    obtain ⟨hlt, hget, -⟩ := List.idxOf?_eq_some_iff.mp hnum
    have hdata := List.getElem?_eq_some_iff.mpr ⟨hlt, hget⟩
    have hle := hc.entries_le
    simp only [List.length_cons] at hcap hf
    obtain ⟨f, rfl⟩ := exists_succ_of_length_le (n := lb.length) (f := f) hf
    refine ⟨L, ?_, Steps.of_corr hc, DumpArg.mem_ids.mpr (List.mem_of_getElem? hdata), by simp⟩
    rw [List.cons_append, rObject0_cons, rObjectSwitch_link (rLong_append_of_wLong hlb rest)
      (by rw [lookupIndex_ofNat _ (by omega)]; exact hc.data_ref num id hdata)]
  · obtain ⟨L', hload, hsteps, hg, hpos⟩ :=
      wObject_new_load hH ih hnew ho hbody hivar hc hcap hf rest
    obtain ⟨hidx, hget⟩ := hc.idxOf_entered hnew hg
    exact ⟨L', by rw [hidx]; exact hload, hsteps, List.mem_of_getElem? hget, hpos⟩

/-- **One level of `w_object` reads back**, given that the level below does. -/
theorem simulates_succ (hH : ∀ o ∈ H, o.Canonical) (ih : Simulates H d) :
    Simulates H (d + 1) := by
  intro v limit D D' bs hv hw pos f L hc hcap hf rest
  cases v with
  | qnil =>
    obtain ⟨rfl, rfl⟩ := wObject_qnil hw
    obtain ⟨f, rfl⟩ := exists_succ_of_length_le (n := 0) (f := f) hf
    exact ⟨L, (rObject0_cons f false _ rest L).trans rObjectSwitch_nil, Steps.of_corr hc,
      by simp [Val.refs], by simp⟩
  | qtrue =>
    obtain ⟨rfl, rfl⟩ := wObject_qtrue hw
    obtain ⟨f, rfl⟩ := exists_succ_of_length_le (n := 0) (f := f) hf
    exact ⟨L, (rObject0_cons f false _ rest L).trans rObjectSwitch_true, Steps.of_corr hc,
      by simp [Val.refs], by simp⟩
  | qfalse =>
    obtain ⟨rfl, rfl⟩ := wObject_qfalse hw
    obtain ⟨f, rfl⟩ := exists_succ_of_length_le (n := 0) (f := f) hf
    exact ⟨L, (rObject0_cons f false _ rest L).trans rObjectSwitch_false, Steps.of_corr hc,
      by simp [Val.refs], by simp⟩
  | fixnum w =>
    obtain ⟨L', hload, hsteps, hpos⟩ := wObject_fixnum_load hv hw hc hf rest
    exact ⟨L', hload, hsteps, by simp [Val.refs], hpos⟩
  | sym s =>
    obtain ⟨L', hload, hsteps, hpos⟩ := wSymbol_load (wObject_sym hw) hc hcap hf rest
    exact ⟨L', hload, hsteps, by simp [Val.refs], hpos⟩
  | ref id =>
    obtain ⟨L', hload, hsteps, hmem, hpos⟩ := wObject_ref_load hH ih hw hc hcap hf rest
    exact ⟨L', hload, hsteps, by simpa [Val.refs] using hmem, hpos⟩

/-- Every level of `w_object` reads back: the induction on the levels. -/
theorem wObject_load (hH : ∀ o ∈ H, o.Canonical) : ∀ d, Simulates H d
  | 0 => fun _ _ _ _ _ _ hw => by cases hw
  | d + 1 => simulates_succ hH (wObject_load hH d)

end Load

/-! ## The round trip -/

/-- **`Marshal.load(Marshal.dump(obj))` is `obj` with its objects renumbered.** A dump of a
value of a heap in Ruby's form, shorter than `2 ^ 63` bytes, loads back, whatever bytes follow
it: the load makes one object for each object the dump entered, in the order `ids` it entered
them, each the dumped object with every reference `id` renumbered `ids.idxOf id`. The objects
entered are distinct, and they are all that the value and they point to, so the loaded graph
is the dumped one, shared objects and cycles included. -/
theorem marshalLoad_marshalDump_graph {H : List Obj} {v : Val} {limit : ℤ} {bs : List UInt8}
    (hH : ∀ o ∈ H, o.Canonical) (hv : v.Canonical) (hd : marshalDump H limit v = .ok bs)
    (hcap : bs.length < 2 ^ 63) (rest : List UInt8) :
    ∃ ids : List ℕ, ids.Nodup ∧ (∀ r ∈ v.refs, r ∈ ids) ∧
      (∀ i ∈ ids, ∃ o, H[i]? = some o ∧ ∀ r ∈ o.refs, r ∈ ids) ∧
      marshalLoad (bs ++ rest) =
        .ok (v.mapRefs ids.idxOf, ids.map fun i => (H.getD i default).mapRefs ids.idxOf) := by
  obtain ⟨⟨body, D'⟩, hw, hbs⟩ := Except.bind_eq_ok hd
  obtain rfl : marshalMajor :: marshalMinor :: body = bs := Except.ok.inj hbs
  simp only [List.length_cons] at hcap
  obtain ⟨L', hload, hsteps, hrefs, -⟩ := wObject_load hH _ hv hw (f := (body ++ rest).length + 1)
    corr_empty (by omega) (by simp; omega) rest
  -- every object the load made is one the dump entered
  have hmade : ∀ j < D'.ids.length, Made H D' L' j := fun j hj =>
    hsteps.fresh j (Nat.zero_le j) (by rw [hsteps.corr.heap_length]; exact hj)
  refine ⟨D'.ids, hsteps.corr.ids_nodup, hrefs, ?_, ?_⟩
  · intro i hi
    obtain ⟨j, hj, rfl⟩ := List.getElem_of_mem hi
    obtain ⟨i', o, hi', ho, hr, -⟩ := hmade j hj
    rw [List.getElem?_eq_getElem hj, Option.some.injEq] at hi'
    exact ⟨o, hi' ▸ ho, hr⟩
  · have hheap : L'.heap = D'.ids.map fun i => (H.getD i default).mapRefs D'.ids.idxOf := by
      refine List.ext_getElem? fun j => ?_
      by_cases hj : j < D'.ids.length
      · obtain ⟨i, o, hi, ho, -, hL⟩ := hmade j hj
        rw [hL, List.getElem?_map, hi, Option.map_some, List.getD_eq_getElem?_getD, ho,
          Option.getD_some]
      · rw [List.getElem?_eq_none (by rw [hsteps.corr.heap_length]; omega),
          List.getElem?_eq_none (by simp; omega)]
    rw [List.cons_append, List.cons_append, marshalLoad]
    simp only [rByte, Except.mapError_ok, Except.ok_bind]
    rw [if_neg (by decide), hload, Except.ok_bind, hheap]
    rfl

/-- `Marshal.load(Marshal.dump(["ab"] * 2))`: the Array and the String it holds twice. -/
theorem marshalLoad_marshalDump_graph_shared :
    (∀ o ∈ [Obj.ary [.ref 1, .ref 1], .str [97, 98] .utf8], o.Canonical) ∧ (Val.ref 0).Canonical ∧
      marshalDump [.ary [.ref 1, .ref 1], .str [97, 98] .utf8] (-1) (.ref 0) =
        .ok [4, 8, 91, 7, 73, 34, 7, 97, 98, 6, 58, 6, 69, 84, 64, 6] ∧
      [4, 8, 91, 7, 73, 34, 7, 97, 98, 6, 58, 6, 69, 84, 64, 6].length < 2 ^ 63 ∧
      ∃ ids : List ℕ, ids.Nodup ∧ (∀ r ∈ (Val.ref 0).refs, r ∈ ids) ∧
        (∀ i ∈ ids, ∃ o, [Obj.ary [.ref 1, .ref 1], .str [97, 98] .utf8][i]? = some o ∧
          ∀ r ∈ o.refs, r ∈ ids) ∧
        marshalLoad ([4, 8, 91, 7, 73, 34, 7, 97, 98, 6, 58, 6, 69, 84, 64, 6] ++ []) =
          .ok ((Val.ref 0).mapRefs ids.idxOf, ids.map fun i =>
            ([Obj.ary [.ref 1, .ref 1], .str [97, 98] .utf8].getD i default).mapRefs ids.idxOf) := by
  have hH : ∀ o ∈ [Obj.ary [.ref 1, .ref 1], .str [97, 98] .utf8], o.Canonical := by
    simp [Obj.Canonical, Val.Canonical]
  have hd : marshalDump [.ary [.ref 1, .ref 1], .str [97, 98] .utf8] (-1) (.ref 0) =
      .ok [4, 8, 91, 7, 73, 34, 7, 97, 98, 6, 58, 6, 69, 84, 64, 6] := by
    decide
  exact ⟨hH, trivial, hd, by norm_num,
    marshalLoad_marshalDump_graph (v := .ref 0) hH trivial hd (by norm_num) []⟩

end CRuby.Marshal.Graph
