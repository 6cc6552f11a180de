import CRuby.Str.TrTable
import Mathlib.Data.List.Destutter

/-!
# `tr_trans`: `String#tr` and `String#tr_s` (string.c)

`tr_trans(str, src, repl, sflag)` translates the characters of `str` that are in the set `src`
describes into the characters of `repl`. It first builds the translation: without a leading
`^` each character of `src` is paired with the next character of `repl`, or with
`trrepl.now` once `repl` is used up; after a `^` every character outside the set goes to
`last`, the `now` of `trrepl` at its end. Byte values are kept in `trans[256]` and larger code
points in a hash. It then runs one of three loops over `str`: the squeezing loop of `tr_s`
(`sflag`), an in-place loop over bytes when the encoding has one byte per character or the
string is single-byte optimizable and no hash was made, and the general loop.

The three loops read the translation differently. For a code point from 256 up with no hash,
the general loop gives `last` after a `^`, and the squeezing loop leaves the character alone
(`trLookup`). The byte loop stores only the low byte of what it writes, so a `last` from 256 up
becomes another byte. And `last` is `trrepl.now`, which a range `c-c` leaves one past `c`.
-/

namespace CRuby.Str

open CRuby.Enc

/-- `RSTRING_LEN(src) > 1 && rb_enc_ascget(trsrc.p, trsrc.pend, &l, enc) == '^' &&
trsrc.p + l < trsrc.pend`: whether `src` is negated, and its bytes after the `^`. -/
def trTransParse (enc : Encoding) (src : List UInt8) : Bool × List UInt8 :=
  if 1 < src.length then
    match enc.ascget src with
    | some (94, l) => if l < src.length then (true, src.drop l) else (false, src)
    | _ => (false, src)
  else (false, src)

/-- `rb_hash_aset(hash, UINT2NUM(k), v)`, making the hash when it is `0`. -/
def hashAset (hash : Option (UInt32 → Option UInt32)) (k v : UInt32) :
    Option (UInt32 → Option UInt32) :=
  some fun x => if x = k then some v else (hash.getD fun _ => none) x

/-- The translation `tr_trans` builds: `cflag`, `trans[256]`, the `hash` of the code points
from 256 up (`none` for `hash == 0`), `last`, and `singlebyte`. -/
structure TrTransTable where
  cflag : Bool
  trans : ℕ → UInt32
  hash : Option (UInt32 → Option UInt32)
  last : UInt32
  singlebyte : Bool

/-- One character of `src` after a `^`: a byte value is marked `errc`, a larger code point goes
into the hash with `Qtrue` (written `1`: only its presence is read). -/
def trNegStep (acc : (ℕ → UInt32) × Option (UInt32 → Option UInt32)) (c : UInt32) :
    (ℕ → UInt32) × Option (UInt32 → Option UInt32) :=
  if c < 256 then (Function.update acc.1 c.toNat errc, acc.2) else (acc.1, hashAset acc.2 c 1)

/-- `while ((c = trnext(&trrepl, enc)) != errc); last = trrepl.now;` -/
def trLast (enc : Encoding) (t : Tr) : Except String UInt32 :=
  match h : trnext enc t with
  | .error e => .error e
  | .ok (c, t') => if hc : c = errc then .ok t'.now else trLast enc t'
termination_by t.measure
decreasing_by exact trnext_decreases h hc

/-- The loop `while ((c = trnext(&trsrc, enc)) != errc)` without a `^`: `c` is paired with the
next character `r` of `repl`, or `trrepl.now` after its end, and a byte value whose `r` takes
more than one byte clears `singlebyte`. -/
def trPairLoop (enc : Encoding) (trsrc trrepl : Tr) (trans : ℕ → UInt32)
    (hash : Option (UInt32 → Option UInt32)) (singlebyte : Bool) :
    Except String ((ℕ → UInt32) × Option (UInt32 → Option UInt32) × Bool) :=
  match h : trnext enc trsrc with
  | .error e => .error e
  | .ok (c, trsrc') =>
    if hc : c = errc then .ok (trans, hash, singlebyte)
    else
      match trnext enc trrepl with
      | .error e => .error e
      | .ok (r, trrepl') =>
        let r := if r = errc then trrepl'.now else r
        if c < 256 then
          match enc.codelen r with
          | .error e => .error e
          | .ok n =>
            trPairLoop enc trsrc' trrepl' (Function.update trans c.toNat r) hash
              (singlebyte && n == 1)
        else trPairLoop enc trsrc' trrepl' trans (hashAset hash c r) singlebyte
termination_by trsrc.measure
decreasing_by all_goals exact trnext_decreases h hc

/-- The translation of `tr_trans`, from the bytes of `src` after the `^` and `repl`. -/
def trTransSetup (enc : Encoding) (cflag : Bool) (srcp repl : List UInt8) (singlebyte : Bool) :
    Except String TrTransTable := do
  let trsrc : Tr := ⟨false, 0, 0, srcp⟩
  let trrepl : Tr := ⟨false, 0, 0, repl⟩
  if cflag then
    let cs ← trChars enc trsrc
    -- `trans[i] = 1` at first; the characters of `src` become `errc`, all others `last`
    let (tbl, hash) := cs.foldl trNegStep (fun _ => 1, none)
    let last ← trLast enc trrepl
    return ⟨true, fun i => if tbl i ≠ errc then last else errc, hash, last, singlebyte⟩
  else
    let (tbl, hash, singlebyte) ← trPairLoop enc trsrc trrepl (fun _ => errc) none singlebyte
    return ⟨false, tbl, hash, 0, singlebyte⟩

/-- What the squeezing and the general loop make of a character `c`: `trans[c]` for a byte
value, the hash for a larger code point, and `noHash` when there is no hash; `errc` leaves
the character as it is. `NUM2INT` gives back the `r` stored. -/
def trLookup (tt : TrTransTable) (noHash : UInt32) (c : UInt32) : UInt32 :=
  if c < 256 then tt.trans c.toNat
  else
    match tt.hash with
    | some h =>
      match h c with
      | none => if tt.cflag then tt.last else errc
      | some r => if tt.cflag then errc else r
    | none => noHash

/-- The loop of `tr_s` (`sflag`) from `s`, with `save` the last character written by a
translation (`-1` after an untranslated one) and the buffer `buf` so far. A translated
character equal to `save` is dropped. `rb_enc_mbcput` appends the bytes of the character. -/
def trSqueezeLoop (enc : Encoding) (tt : TrTransTable) (s : List UInt8) (save : UInt32)
    (buf : List UInt8) (modify : Bool) : Except String (List UInt8 × Bool) :=
  match s with
  | [] => .ok (buf, modify)
  | b :: rest =>
    match h : enc.codepointLen (b :: rest) with
    | .error e => .error e
    | .ok (c0, clen) =>
      let c := trLookup tt errc c0
      if c ≠ errc then
        if save = c then trSqueezeLoop enc tt ((b :: rest).drop clen) save buf modify
        else
          match enc.codelen c with
          | .error e => .error e
          | .ok _ => trSqueezeLoop enc tt ((b :: rest).drop clen) c (buf ++ enc.codeToMbc c) true
      else trSqueezeLoop enc tt ((b :: rest).drop clen) errc (buf ++ enc.codeToMbc c0) modify
termination_by s.length
decreasing_by all_goals exact length_drop_codepointLen_lt h

/-- The loop over bytes, in place: a byte whose `trans` entry is not `errc` is overwritten by
that entry, or by `last` after a `^`, each stored in a `char`. -/
def trSingleByteLoop (tt : TrTransTable) : List UInt8 → List UInt8 × Bool
  | [] => ([], false)
  | b :: rest =>
    let (out, modify) := trSingleByteLoop tt rest
    if tt.trans b.toNat ≠ errc then
      ((if !tt.cflag then (tt.trans b.toNat).toUInt8 else tt.last.toUInt8) :: out, true)
    else (b :: out, modify)

/-- The general loop: every character is written again, translated or not. -/
def trGeneralLoop (enc : Encoding) (tt : TrTransTable) (s : List UInt8) (buf : List UInt8)
    (modify : Bool) : Except String (List UInt8 × Bool) :=
  match s with
  | [] => .ok (buf, modify)
  | b :: rest =>
    match h : enc.codepointLen (b :: rest) with
    | .error e => .error e
    | .ok (c0, clen) =>
      let c := trLookup tt (if tt.cflag then tt.last else errc) c0
      if c ≠ errc then
        match enc.codelen c with
        | .error e => .error e
        | .ok _ => trGeneralLoop enc tt ((b :: rest).drop clen) (buf ++ enc.codeToMbc c) true
      else trGeneralLoop enc tt ((b :: rest).drop clen) (buf ++ enc.codeToMbc c0) modify
termination_by s.length
decreasing_by all_goals exact length_drop_codepointLen_lt h

/-- The loop of `rb_str_delete_bang(1, &src, str)`: a character in the set is dropped, the
others are kept; once one is dropped, `rb_enc_mbcput` writes the kept ones again. -/
def strDeleteLoop (enc : Encoding) (tabs : TrTables) (s : List UInt8) (buf : List UInt8)
    (modify : Bool) : Except String (List UInt8 × Bool) :=
  match s with
  | [] => .ok (buf, modify)
  | b :: rest =>
    if enc.asciicompat && b < 0x80 then
      if tabs.stable b.toNat then strDeleteLoop enc tabs rest buf true
      else strDeleteLoop enc tabs rest (buf ++ [b]) modify
    else
      match h : enc.codepointLen (b :: rest) with
      | .error e => .error e
      | .ok (c, clen) =>
        if trFind c tabs.stable tabs.del tabs.nodel then
          strDeleteLoop enc tabs ((b :: rest).drop clen) buf true
        else
          strDeleteLoop enc tabs ((b :: rest).drop clen)
            (buf ++ if modify then enc.codeToMbc c else (b :: rest).take clen) modify
termination_by s.length
decreasing_by
  · simp
  · simp
  · exact length_drop_codepointLen_lt h
  · exact length_drop_codepointLen_lt h

/-- **`rb_str_delete_bang(argc, argv, str)`**: the new bytes and whether any was deleted. -/
def rbStrDeleteBang (enc : Encoding) (str : List UInt8) (specs : List (List UInt8)) :
    Except String (List UInt8 × Bool) := do
  if str = [] then return (str, false)
  -- the same calls of `tr_setup_table` as `rb_str_count`
  let tabs ← rbStrCountTables enc specs
  strDeleteLoop enc tabs str [] false

/-- **`tr_trans(str, src, repl, sflag)`**: the new bytes of `str` and `modify`. `cr` is the
coderange `str` has cached. -/
def trTrans (enc : Encoding) (cr : Coderange) (str src repl : List UInt8) (sflag : Bool) :
    Except String (List UInt8 × Bool) := do
  if str = [] then return (str, false)
  if repl = [] then return ← rbStrDeleteBang enc str [src]
  let (cflag, srcp) := trTransParse enc src
  let tt ← trTransSetup enc cflag srcp repl (singleByteOptimizable cr enc)
  if sflag then trSqueezeLoop enc tt str errc [] false
  else if enc.maxEncLen = 1 || (tt.singlebyte && tt.hash.isNone) then
    return trSingleByteLoop tt str
  else trGeneralLoop enc tt str [] false

/-- `String#tr`: `tr_trans` on a copy. -/
def rbStrTr (enc : Encoding) (cr : Coderange) (str src repl : List UInt8) :
    Except String (List UInt8) :=
  (·.1) <$> trTrans enc cr str src repl false

/-- `String#tr_s`. -/
def rbStrTrS (enc : Encoding) (cr : Coderange) (str src repl : List UInt8) :
    Except String (List UInt8) :=
  (·.1) <$> trTrans enc cr str src repl true


/-! ## The characters of the loops -/

/-- The characters of `str` as the squeezing and the general loop read them, with
`rb_enc_codepoint_len`. -/
def strChars (enc : Encoding) (s : List UInt8) : Except String (List UInt32) :=
  match s with
  | [] => .ok []
  | b :: rest =>
    match h : enc.codepointLen (b :: rest) with
    | .error e => .error e
    | .ok (c, clen) => (c :: ·) <$> strChars enc ((b :: rest).drop clen)
termination_by s.length
decreasing_by exact length_drop_codepointLen_lt h

theorem strChars_of_ok {enc : Encoding} {b : UInt8} {rest : List UInt8} {c : UInt32} {clen : ℕ}
    (h : enc.codepointLen (b :: rest) = .ok (c, clen)) :
    strChars enc (b :: rest) = (c :: ·) <$> strChars enc ((b :: rest).drop clen) := by
  rw [strChars]
  split
  · simp_all
  · rename_i c' clen' h'
    obtain ⟨rfl, rfl⟩ := Prod.mk.inj (Except.ok.inj (h.symm.trans h'))
    rfl

theorem strChars_of_error {enc : Encoding} {b : UInt8} {rest : List UInt8} {e : String}
    (h : enc.codepointLen (b :: rest) = .error e) : strChars enc (b :: rest) = .error e := by
  rw [strChars]
  split
  · rename_i e' h'
    rw [h] at h'
    cases h'
    rfl
  · simp_all

/-- A character of the output: what the lookup gives, marked `true`, or the character itself,
marked `false`, when it gives `errc`. -/
def trMark (tt : TrTransTable) (noHash c0 : UInt32) : UInt32 × Bool :=
  let c := trLookup tt noHash c0
  if c ≠ errc then (c, true) else (c0, false)

theorem trMark_of_ne {tt : TrTransTable} {noHash c0 : UInt32} (h : trLookup tt noHash c0 ≠ errc) :
    trMark tt noHash c0 = (trLookup tt noHash c0, true) := by
  rw [trMark, if_pos h]

theorem trMark_of_eq {tt : TrTransTable} {noHash c0 : UInt32} (h : trLookup tt noHash c0 = errc) :
    trMark tt noHash c0 = (c0, false) := by
  rw [trMark, if_neg (not_not.mpr h)]

/-- Two characters of the output that `tr_s` keeps both of: not the same character translated
twice. -/
def TrDistinct (x y : UInt32 × Bool) : Prop := ¬(x.2 = true ∧ y.2 = true ∧ x.1 = y.1)

instance : DecidableRel TrDistinct := fun x y =>
  inferInstanceAs (Decidable ¬(x.2 = true ∧ y.2 = true ∧ x.1 = y.1))

theorem destutter'_eq_cons_tail {α : Type} (R : α → α → Prop) [DecidableRel R] (a : α)
    (l : List α) : l.destutter' R a = a :: (l.destutter' R a).tail := by
  induction l with
  | nil => rfl
  | cons b l ih =>
    by_cases hr : R a b
    · rw [List.destutter'_cons_pos _ hr]
      rfl
    · rw [List.destutter'_cons_neg _ hr]
      exact ih

/-- The bytes of marked characters. -/
def markBytes (enc : Encoding) (ms : List (UInt32 × Bool)) : List UInt8 :=
  ms.flatMap (enc.codeToMbc ·.1)

section Loops

variable {enc : Encoding} (hlen : ∀ c, ∃ n, enc.codelen c = .ok n) (tt : TrTransTable)
include hlen

/-- **The general loop writes every character of `str` through the lookup**, when
`rb_enc_codelen` never raises. -/
theorem trGeneralLoop_eq (s buf : List UInt8) (modify : Bool) :
    trGeneralLoop enc tt s buf modify =
      (fun cs => (buf ++ markBytes enc (cs.map (trMark tt (if tt.cflag then tt.last else errc))),
        modify || (cs.map (trMark tt (if tt.cflag then tt.last else errc))).any (·.2))) <$>
        strChars enc s := by
  fun_induction trGeneralLoop enc tt s buf modify with
  | case1 buf modify =>
    rw [strChars]
    simp [markBytes]
  | case2 buf modify b rest e h =>
    rw [strChars_of_error h]
    rfl
  | case3 buf modify b rest c0 clen h c hc e hce =>
    obtain ⟨n, hn⟩ := hlen c
    rw [hn] at hce
    cases hce
  | case4 buf modify b rest c0 clen h c hc n hn ih =>
    have hc' : trLookup tt (if tt.cflag then tt.last else errc) c0 ≠ errc := hc
    rw [ih, strChars_of_ok h]
    refine Except.map_map_of_eq _ fun cs => ?_
    simp [markBytes, trMark_of_ne hc', c]
  | case5 buf modify b rest c0 clen h c hc ih =>
    have hc' : trLookup tt (if tt.cflag then tt.last else errc) c0 = errc := not_not.mp hc
    rw [ih, strChars_of_ok h]
    refine Except.map_map_of_eq _ fun cs => ?_
    simp [markBytes, trMark_of_eq hc']

/-- What `save` and `modify` say of the last character kept: a translated one is `save` and has
set `modify`; after an untranslated one `save` is `-1`. -/
def SaveOf (x : UInt32 × Bool) (save : UInt32) (modify : Bool) : Prop :=
  (x.2 = true → x.1 = save ∧ modify = true) ∧ (x.2 = false → save = errc)

/-- **The squeezing loop keeps a translated character only when the last one kept is not the
same translated character**, when `rb_enc_codelen` never raises. `x` is the last character
kept before `s`. -/
theorem trSqueezeLoop_eq (s : List UInt8) (save : UInt32) (buf : List UInt8) (modify : Bool) :
    ∀ x, SaveOf x save modify →
      trSqueezeLoop enc tt s save buf modify =
        (fun cs => (buf ++ markBytes enc ((cs.map (trMark tt errc)).destutter' TrDistinct x).tail,
          modify || (cs.map (trMark tt errc)).any (·.2))) <$> strChars enc s := by
  fun_induction trSqueezeLoop enc tt s save buf modify with
  | case1 save buf modify =>
    intro x _
    rw [strChars]
    simp [markBytes, List.destutter'_nil]
  | case2 save buf modify b rest e h =>
    intro x _
    rw [strChars_of_error h]
    rfl
  | case3 buf modify b rest c0 clen h c hc ih =>
    -- a repeat (`save == c`): the last character kept is this one, translated
    intro x hx
    have hc' : trLookup tt errc c0 ≠ errc := hc
    have hx2 : x.2 = true := by
      cases hx2 : x.2
      · exact absurd (hx.2 hx2) hc'
      · rfl
    obtain ⟨hx1, hmod⟩ := hx.1 hx2
    rw [ih x hx, strChars_of_ok h]
    refine Except.map_map_of_eq _ fun cs => ?_
    have hdrop : ¬TrDistinct x (trLookup tt errc c0, true) := fun hd => hd ⟨hx2, rfl, hx1⟩
    rw [List.map_cons, trMark_of_ne hc', List.destutter'_cons_neg _ hdrop, hmod]
    simp
  | case4 save buf modify b rest c0 clen h c hc hsave e hce =>
    obtain ⟨n, hn⟩ := hlen c
    rw [hn] at hce
    cases hce
  | case5 save buf modify b rest c0 clen h c hc hsave n hn ih =>
    -- a new translated character: kept, and it becomes `save`
    intro x hx
    have hc' : trLookup tt errc c0 ≠ errc := hc
    rw [ih (trLookup tt errc c0, true) ⟨fun _ => ⟨rfl, rfl⟩, fun h => by cases h⟩,
      strChars_of_ok h]
    refine Except.map_map_of_eq _ fun cs => ?_
    have hkeep : TrDistinct x (trLookup tt errc c0, true) := by
      rintro ⟨hx2, -, hx1⟩
      exact hsave ((hx.1 hx2).1.symm.trans hx1)
    rw [List.map_cons, trMark_of_ne hc', List.destutter'_cons_pos _ hkeep,
      destutter'_eq_cons_tail TrDistinct (trLookup tt errc c0, true)]
    simp [markBytes, c]
  | case6 save buf modify b rest c0 clen h c hc ih =>
    -- an untranslated character: kept, and `save` is `-1`
    intro x hx
    have hc' : trLookup tt errc c0 = errc := not_not.mp hc
    rw [ih (c0, false) ⟨fun h => (by cases h), fun _ => rfl⟩, strChars_of_ok h]
    refine Except.map_map_of_eq _ fun cs => ?_
    have hkeep : TrDistinct x (c0, false) := by
      rintro ⟨-, h, -⟩
      cases h
    rw [List.map_cons, trMark_of_eq hc', List.destutter'_cons_pos _ hkeep,
      destutter'_eq_cons_tail TrDistinct (c0, false)]
    simp [markBytes]

end Loops


/-! ## `tr_s` and `tr` -/

/-- Where the two loops read the translation alike: a hash, or no `^`. -/
theorem trLookup_errc_eq {tt : TrTransTable} (h : tt.hash.isSome = true ∨ tt.cflag = false)
    (c : UInt32) : trLookup tt errc c = trLookup tt (if tt.cflag then tt.last else errc) c := by
  rcases h with hhash | hcflag
  · unfold trLookup
    obtain ⟨f, hf⟩ := Option.isSome_iff_exists.mp hhash
    rw [hf]
  · rw [hcflag]
    rfl

/-- After a `^` with no hash, a code point from 256 up is left alone by the squeezing loop and
becomes `last` in the general loop. -/
theorem trLookup_wide_of_no_hash {tt : TrTransTable} (hcflag : tt.cflag = true)
    (hhash : tt.hash = none) {c : UInt32} (hc : 256 ≤ c) :
    trLookup tt errc c = errc ∧ trLookup tt (if tt.cflag then tt.last else errc) c = tt.last := by
  have hlt : ¬c < 256 := UInt32.not_lt.mpr hc
  constructor
  · unfold trLookup
    rw [if_neg hlt, hhash]
  · unfold trLookup
    rw [if_neg hlt, hhash, hcflag]
    rfl

theorem tail_destutter'_of_forall {α : Type} {R : α → α → Prop} [DecidableRel R] {x : α}
    (hx : ∀ y, R x y) (l : List α) : (l.destutter' R x).tail = l.destutter R := by
  cases l with
  | nil => rfl
  | cons y l =>
    rw [List.destutter'_cons_pos _ (hx y), List.destutter_cons']
    rfl

/-- **`tr_s` collapses the runs of `tr`**: where the two loops read the translation alike, the
squeezing loop writes the characters of the general loop with each run of one translated
character kept once. -/
theorem trSqueezeLoop_collapses {enc : Encoding} (hlen : ∀ c, ∃ n, enc.codelen c = .ok n)
    {tt : TrTransTable} (hagree : tt.hash.isSome = true ∨ tt.cflag = false) {s : List UInt8}
    {cs : List UInt32} (hcs : strChars enc s = .ok cs) :
    trGeneralLoop enc tt s [] false =
        .ok (markBytes enc (cs.map (trMark tt (if tt.cflag then tt.last else errc))),
          (cs.map (trMark tt (if tt.cflag then tt.last else errc))).any (·.2)) ∧
      trSqueezeLoop enc tt s errc [] false =
        .ok (markBytes enc ((cs.map (trMark tt (if tt.cflag then tt.last else errc))).destutter
            TrDistinct), (cs.map (trMark tt (if tt.cflag then tt.last else errc))).any (·.2)) := by
  have hmark : trMark tt errc = trMark tt (if tt.cflag then tt.last else errc) := by
    funext c
    rw [trMark, trMark, trLookup_errc_eq hagree c]
  -- the squeezing loop starts after no character, as after an untranslated one
  have hstart : SaveOf (errc, false) errc false := ⟨fun h => (by cases h), fun _ => rfl⟩
  have hfirst : ∀ y, TrDistinct (errc, false) y := by
    rintro y ⟨h, -⟩
    cases h
  refine ⟨?_, ?_⟩
  · rw [trGeneralLoop_eq hlen, hcs]
    simp
  · rw [trSqueezeLoop_eq hlen tt s errc [] false (errc, false) hstart, hcs, hmark]
    simp only [tail_destutter'_of_forall hfirst]
    simp


/-! ## The steps of the setup -/

section Setup

variable {enc : Encoding}

theorem trLast_of_errc {t t' : Tr} (h : trnext enc t = .ok (errc, t')) :
    trLast enc t = .ok t'.now := by
  rw [trLast]
  split
  · simp_all
  · rename_i c t'' h'
    obtain ⟨rfl, rfl⟩ := Prod.mk.inj (Except.ok.inj (h.symm.trans h'))
    rw [dif_pos rfl]

theorem trLast_of_trnext {t t' : Tr} {c : UInt32} (h : trnext enc t = .ok (c, t'))
    (hc : c ≠ errc) : trLast enc t = trLast enc t' := by
  rw [trLast]
  split
  · simp_all
  · rename_i c' t'' h'
    obtain ⟨rfl, rfl⟩ := Prod.mk.inj (Except.ok.inj (h.symm.trans h'))
    rw [dif_neg hc]

theorem trPairLoop_of_errc {trsrc trsrc' trrepl : Tr} {tbl : ℕ → UInt32}
    {hash : Option (UInt32 → Option UInt32)} {sb : Bool} (h : trnext enc trsrc = .ok (errc, trsrc')) :
    trPairLoop enc trsrc trrepl tbl hash sb = .ok (tbl, hash, sb) := by
  rw [trPairLoop]
  split
  · simp_all
  · rename_i c t'' h'
    obtain ⟨rfl, rfl⟩ := Prod.mk.inj (Except.ok.inj (h.symm.trans h'))
    rw [dif_pos rfl]

/-- A byte value of `src` paired with the next character of `repl`. -/
theorem trPairLoop_byte {trsrc trsrc' trrepl trrepl' : Tr} {tbl : ℕ → UInt32}
    {hash : Option (UInt32 → Option UInt32)} {sb : Bool} {c r : UInt32} {n : ℤ}
    (h : trnext enc trsrc = .ok (c, trsrc')) (hc : c ≠ errc)
    (hr : trnext enc trrepl = .ok (r, trrepl')) (hlt : c < 256)
    (hn : enc.codelen (if r = errc then trrepl'.now else r) = .ok n) :
    trPairLoop enc trsrc trrepl tbl hash sb =
      trPairLoop enc trsrc' trrepl'
        (Function.update tbl c.toNat (if r = errc then trrepl'.now else r)) hash (sb && n == 1) := by
  rw [trPairLoop]
  split
  · simp_all
  · rename_i c' t'' h'
    obtain ⟨rfl, rfl⟩ := Prod.mk.inj (Except.ok.inj (h.symm.trans h'))
    rw [dif_neg hc]
    simp only [hr, if_pos hlt, hn]

/-- The setup after a `^`. -/
theorem trTransSetup_negated {srcp repl : List UInt8} {sb : Bool} {cs : List UInt32}
    {last : UInt32} (hcs : trChars enc ⟨false, 0, 0, srcp⟩ = .ok cs)
    (hlast : trLast enc ⟨false, 0, 0, repl⟩ = .ok last) :
    trTransSetup enc true srcp repl sb =
      .ok ⟨true, fun i => if (cs.foldl trNegStep (fun _ => 1, none)).1 i ≠ errc then last else errc,
        (cs.foldl trNegStep (fun _ => 1, none)).2, last, sb⟩ := by
  simp only [trTransSetup, if_true, hcs, hlast]
  rfl

/-- The setup without a `^`. -/
theorem trTransSetup_plain {srcp repl : List UInt8} {sb sb' : Bool} {tbl : ℕ → UInt32}
    {hash : Option (UInt32 → Option UInt32)}
    (h : trPairLoop enc ⟨false, 0, 0, srcp⟩ ⟨false, 0, 0, repl⟩ (fun _ => errc) none sb =
      .ok (tbl, hash, sb')) :
    trTransSetup enc false srcp repl sb = .ok ⟨false, tbl, hash, 0, sb'⟩ := by
  simp only [trTransSetup, Bool.false_eq_true, if_false, h]
  rfl

/-- `tr_trans` after its setup: the loop it runs. -/
theorem trTrans_of_setup {cr : Coderange} {str src repl : List UInt8} {sflag : Bool}
    {tt : TrTransTable} (hstr : str ≠ []) (hrepl : repl ≠ [])
    (hsetup : trTransSetup enc (trTransParse enc src).1 (trTransParse enc src).2 repl
      (singleByteOptimizable cr enc) = .ok tt) :
    trTrans enc cr str src repl sflag =
      if sflag then trSqueezeLoop enc tt str errc [] false
      else if enc.maxEncLen = 1 || (tt.singlebyte && tt.hash.isNone) then
        .ok (trSingleByteLoop tt str)
      else trGeneralLoop enc tt str [] false := by
  simp only [trTrans, hstr, hrepl, if_false]
  rcases hp : trTransParse enc src with ⟨cflag, srcp⟩
  rw [hp] at hsetup
  simp only [hsetup]
  rfl

end Setup

/-! ## Where the paths disagree -/

/-- `"αβ".tr_s("^a", "x")` is `"αβ"` and `"αβ".tr("^a", "x")` is `"xx"`. -/
theorem tr_s_keeps_wide_after_negated :
    rbStrTrS utf8 .valid [0xce, 0xb1, 0xce, 0xb2] [0x5e, 0x61] [0x78] =
        .ok [0xce, 0xb1, 0xce, 0xb2] ∧
      rbStrTr utf8 .valid [0xce, 0xb1, 0xce, 0xb2] [0x5e, 0x61] [0x78] = .ok [0x78, 0x78] := by
  have hcs : trChars utf8 ⟨false, 0, 0, [0x61]⟩ = .ok [0x61] :=
    trChars_of_single rfl (by decide) rfl
  have hx : trnext utf8 ⟨false, 0, 0, [0x78]⟩ = .ok (0x78, ⟨false, 0x78, 0, []⟩) := rfl
  have hlast : trLast utf8 ⟨false, 0, 0, [0x78]⟩ = .ok 0x78 := by
    rw [trLast_of_trnext hx (by decide),
      trLast_of_errc (rfl : trnext utf8 ⟨false, 0x78, 0, []⟩ = .ok (errc, ⟨false, 0x78, 0, []⟩))]
  have hchars : strChars utf8 [0xce, 0xb1, 0xce, 0xb2] = .ok [945, 946] := by
    rw [strChars_of_ok (rfl : utf8.codepointLen [0xce, 0xb1, 0xce, 0xb2] = .ok (945, 2))]
    show (945 :: ·) <$> strChars utf8 [0xce, 0xb2] = _
    rw [strChars_of_ok (rfl : utf8.codepointLen [0xce, 0xb2] = .ok (946, 2))]
    show (945 :: ·) <$> ((946 :: ·) <$> strChars utf8 []) = _
    rw [strChars]
    rfl
  have hsetup : trTransSetup utf8 true [0x61] [0x78] (singleByteOptimizable .valid utf8) = _ :=
    trTransSetup_negated hcs hlast
  have hstart : SaveOf (errc, false) errc false := ⟨fun h => (by cases h), fun _ => rfl⟩
  constructor
  · rw [rbStrTrS, trTrans_of_setup (List.cons_ne_nil _ _) (List.cons_ne_nil _ _) hsetup, if_pos rfl,
      trSqueezeLoop_eq utf8_codelen_ok _ _ errc [] false (errc, false) hstart, hchars]
    rfl
  · rw [rbStrTr, trTrans_of_setup (List.cons_ne_nil _ _) (List.cons_ne_nil _ _) hsetup,
      if_neg Bool.false_ne_true, if_neg (by decide), trGeneralLoop_eq utf8_codelen_ok, hchars]
    rfl

/-- `"abc".tr("^a", "α")` writes the low byte of `α` over `b` and `c`. -/
theorem tr_single_byte_keeps_low_byte :
    rbStrTr utf8 .sevenBit [0x61, 0x62, 0x63] [0x5e, 0x61] [0xce, 0xb1] = .ok [0x61, 0xb1, 0xb1] := by
  have hcs : trChars utf8 ⟨false, 0, 0, [0x61]⟩ = .ok [0x61] :=
    trChars_of_single rfl (by decide) rfl
  have hx : trnext utf8 ⟨false, 0, 0, [0xce, 0xb1]⟩ = .ok (945, ⟨false, 945, 0, []⟩) := rfl
  have hlast : trLast utf8 ⟨false, 0, 0, [0xce, 0xb1]⟩ = .ok 945 := by
    rw [trLast_of_trnext hx (by decide),
      trLast_of_errc (rfl : trnext utf8 ⟨false, 945, 0, []⟩ = .ok (errc, ⟨false, 945, 0, []⟩))]
  have hsetup : trTransSetup utf8 true [0x61] [0xce, 0xb1] (singleByteOptimizable .sevenBit utf8) =
      _ := trTransSetup_negated hcs hlast
  rw [rbStrTr, trTrans_of_setup (List.cons_ne_nil _ _) (List.cons_ne_nil _ _) hsetup,
    if_neg Bool.false_ne_true, if_pos (by decide)]
  decide

/-- `"hello".tr("elo", "a-a")`: the range `a-a` gives `a` twice and leaves `trrepl.now` at
`b`, which `o` is paired with. -/
theorem tr_pads_with_now :
    rbStrTr utf8 .sevenBit [0x68, 0x65, 0x6c, 0x6c, 0x6f] [0x65, 0x6c, 0x6f] [0x61, 0x2d, 0x61] =
      .ok [0x68, 0x61, 0x61, 0x61, 0x62] := by
  -- `a-a`: `a` starts the range, `a` ends it with `now` one past, then `-1`
  have hr1 : trnext utf8 ⟨false, 0, 0, [0x61, 0x2d, 0x61]⟩ = .ok (0x61, ⟨true, 0x61, 0x61, []⟩) :=
    rfl
  have hr2 : trnext utf8 ⟨true, 0x61, 0x61, []⟩ = .ok (0x61, ⟨false, 0x62, 0x61, []⟩) := by
    unfold trnext
    rw [if_pos rfl, trGenSkip_of_pos (by decide)]
    rfl
  have hr3 : trnext utf8 ⟨false, 0x62, 0x61, []⟩ = .ok (errc, ⟨false, 0x62, 0x61, []⟩) := rfl
  have hpairs : trPairLoop utf8 ⟨false, 0, 0, [0x65, 0x6c, 0x6f]⟩ ⟨false, 0, 0, [0x61, 0x2d, 0x61]⟩
      (fun _ => errc) none true =
      .ok (Function.update (Function.update (Function.update (fun _ => errc) 0x65 0x61) 0x6c 0x61)
        0x6f 0x62, none, true) := by
    rw [trPairLoop_byte rfl (by decide) hr1 (by decide) rfl,
      trPairLoop_byte rfl (by decide) hr2 (by decide) rfl,
      trPairLoop_byte rfl (by decide) hr3 (by decide) rfl,
      trPairLoop_of_errc rfl]
    rfl
  have hsetup : trTransSetup utf8 false [0x65, 0x6c, 0x6f] [0x61, 0x2d, 0x61]
      (singleByteOptimizable .sevenBit utf8) = _ := trTransSetup_plain hpairs
  rw [rbStrTr, trTrans_of_setup (List.cons_ne_nil _ _) (List.cons_ne_nil _ _) hsetup,
    if_neg Bool.false_ne_true, if_pos (by decide)]
  decide

/-- `tr_s` leaves a multibyte character alone where `tr` translates it, the byte loop writes
another byte than the general loop, and the padding character is not the last of `repl`. -/
theorem tr_paths_disagree :
    rbStrTrS utf8 .valid [0xce, 0xb1, 0xce, 0xb2] [0x5e, 0x61] [0x78] =
        .ok [0xce, 0xb1, 0xce, 0xb2] ∧
      rbStrTr utf8 .valid [0xce, 0xb1, 0xce, 0xb2] [0x5e, 0x61] [0x78] = .ok [0x78, 0x78] ∧
      rbStrTr utf8 .sevenBit [0x61, 0x62, 0x63] [0x5e, 0x61] [0xce, 0xb1] =
        .ok [0x61, 0xb1, 0xb1] ∧
      rbStrTr utf8 .sevenBit [0x68, 0x65, 0x6c, 0x6c, 0x6f] [0x65, 0x6c, 0x6f] [0x61, 0x2d, 0x61] =
        .ok [0x68, 0x61, 0x61, 0x61, 0x62] := by
  obtain ⟨hs, ht⟩ := tr_s_keeps_wide_after_negated
  exact ⟨hs, ht, tr_single_byte_keeps_low_byte, tr_pads_with_now⟩

end CRuby.Str
