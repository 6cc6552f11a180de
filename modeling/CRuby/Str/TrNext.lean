import CRuby.Enc.Utf8
import CRuby.Lib.Except

/-!
# `trnext`: the characters of a `tr` specification (string.c)

`String#tr`, `#count`, `#delete` and `#squeeze` take their character sets as strings such as
`"a-z"`: a backslash quotes the character after it, and `c1-c2` is every character from `c1` to
`c2`. `trnext` hands out these characters one at a time from a `struct tr`: outside a range
(`gen == 0`) it decodes the next character and, when a `-` and another character follow, starts
the range; inside a range it counts `now` up to `max`, skipping the code points the encoding
cannot write. A range that runs downwards raises `ArgumentError`. At the end it returns
`-1`, the `errc` of its callers, and leaves `now` at what it last held.

`trChars` is the loop `while ((c = trnext(&tr, enc)) != errc)` of the callers: the list of
characters, or the error. It terminates: every call either consumes bytes of the
specification or moves `now` towards `max` (`trnext_decreases`).
-/

namespace CRuby.Str

open CRuby.Enc

/-- `struct tr`: the range being expanded (`gen`, `now`, `max`) and the bytes from `p` to
`pend`. -/
structure Tr where
  gen : Bool
  now : UInt32
  max : UInt32
  p : List UInt8

/-- `errc`, the `-1` that ends a specification. -/
def errc : UInt32 := 0xffffffff

/-- The `ArgumentError` of a range that runs downwards, with the characters when both are
ASCII. -/
def invalidRangeMsg (now c : UInt32) : String :=
  if now < 0x80 ∧ c < 0x80 then
    "invalid range \"" ++ String.singleton (Char.ofNat now.toNat) ++ "-" ++
      String.singleton (Char.ofNat c.toNat) ++ "\" in string transliteration"
  else "invalid range in string transliteration"

/-- `if (rb_enc_ascget(t->p, t->pend, &n, enc) == '\\' && t->p + n < t->pend) t->p += n;`: a
backslash quotes the character after it. -/
def trSkipBackslash (enc : Encoding) (p : List UInt8) : List UInt8 :=
  match enc.ascget p with
  | some (92, n) => if n < p.length then p.drop n else p
  | _ => p

/-- The end of `nextpart` after the character `now`: a `-` and a character after it start a
range, which must not run downwards. -/
def trRange (enc : Encoding) (t : Tr) (now : UInt32) (p : List UInt8) :
    Except String (UInt32 × Tr) :=
  match enc.ascget p with
  | some (45, n) =>
    -- `t->p + n < t->pend`, so `t->p < t->pend` holds after the `-`
    if n < p.length then do
      let (c, m) ← enc.codepointLen (p.drop n)
      if now > c then throw (invalidRangeMsg now c)
      return (now, { t with gen := true, now, max := c, p := (p.drop n).drop m })
    else return (now, { t with now, p })
  | _ => return (now, { t with now, p })

/-- The `nextpart` block of `trnext`: `-1` at the end, else the next character. -/
def trNextpart (enc : Encoding) (t : Tr) : Except String (UInt32 × Tr) := do
  if t.p = [] then return (errc, t)
  let (now, n) ← enc.codepointLen (trSkipBackslash enc t.p)
  trRange enc t now ((trSkipBackslash enc t.p).drop n)

theorem sub_one_toNat_lt {now max : UInt32} (h : now + 1 ≠ max) :
    (max - (now + 1) - 1).toNat < (max - now - 1).toNat := by
  have h' : (now + 1).toNat ≠ max.toNat := fun e => h (UInt32.toNat_inj.mp e)
  have hn := now.toNat_lt
  have hm := max.toNat_lt
  simp only [UInt32.toNat_sub, UInt32.toNat_add, UInt32.toNat_one] at *
  omega

/-- The loop `while (ONIGENC_CODE_TO_MBCLEN(enc, ++t->now) <= 0)` with its exit at `max`:
`some` the first code point after `now` that the encoding writes, `none` when `max` comes
first. `now` is an `unsigned int` and wraps. -/
def trGenSkip (enc : Encoding) (now max : UInt32) : Option UInt32 :=
  if enc.codeToMbclen (now + 1) ≤ 0 then
    if h : now + 1 = max then none else trGenSkip enc (now + 1) max
  else some (now + 1)
termination_by (max - now - 1).toNat
decreasing_by exact sub_one_toNat_lt h

theorem trGenSkip_of_pos {enc : Encoding} {now max : UInt32}
    (h : 0 < enc.codeToMbclen (now + 1)) : trGenSkip enc now max = some (now + 1) := by
  rw [trGenSkip, if_neg (not_le.mpr h)]

/-- **`trnext(t, enc)`**: the next character and the state after it. -/
def trnext (enc : Encoding) (t : Tr) : Except String (UInt32 × Tr) :=
  if t.gen then
    match trGenSkip enc t.now t.max with
    | none => trNextpart enc { t with gen := false, now := t.max }
    | some now =>
      if now < t.max then .ok (now, { t with now })
      else .ok (t.max, { t with gen := false, now })
  else trNextpart enc t

/-! ## Termination -/

/-- What is left of a specification: its bytes, then the steps of the range to `max`. -/
def Tr.measure (t : Tr) : ℕ × ℕ :=
  (t.p.length, if t.gen then (t.max - t.now - 1).toNat + 1 else 0)

/-- The code point `trGenSkip` stops at is `max`, or closer to it. -/
theorem trGenSkip_closer (enc : Encoding) {now max now' : UInt32}
    (h : trGenSkip enc now max = some now') :
    now' = max ∨ (max - now' - 1).toNat < (max - now - 1).toNat := by
  induction now using trGenSkip.induct enc max with
  | case1 now hskip hmax =>
    rw [trGenSkip, if_pos hskip, dif_pos hmax] at h
    cases h
  | case2 now hskip hstep ih =>
    rw [trGenSkip, if_pos hskip, dif_neg hstep] at h
    rcases ih h with heq | hlt
    · exact .inl heq
    · exact .inr (lt_trans hlt (sub_one_toNat_lt hstep))
  | case3 now hwrite =>
    rw [trGenSkip, if_neg hwrite] at h
    cases h
    by_cases hmax : now + 1 = max
    · exact .inl hmax
    · exact .inr (sub_one_toNat_lt hmax)

/-- `rb_enc_codepoint_len` consumes at least one byte. -/
theorem codepointLen_pos {enc : Encoding} {s : List UInt8} {c : UInt32} {n : ℕ}
    (h : enc.codepointLen s = .ok (c, n)) : s ≠ [] ∧ 0 < n := by
  by_cases hs : s = []
  · simp [Encoding.codepointLen, hs] at h
  simp only [Encoding.codepointLen, hs, if_false] at h
  split_ifs at h with hr
  obtain ⟨-, rfl⟩ := Prod.mk.inj (Except.ok.inj h)
  exact ⟨hs, by omega⟩

theorem length_trSkipBackslash_le (enc : Encoding) (p : List UInt8) :
    (trSkipBackslash enc p).length ≤ p.length := by
  unfold trSkipBackslash
  split
  · split_ifs
    · rw [List.length_drop]
      omega
    · exact le_rfl
  · exact le_rfl

/-- `trRange` hands out `now` and keeps at most the bytes it got. -/
theorem trRange_ok {enc : Encoding} {t t' : Tr} {now c : UInt32} {p : List UInt8}
    (h : trRange enc t now p = .ok (c, t')) : c = now ∧ t'.p.length ≤ p.length := by
  unfold trRange at h
  split at h
  · split_ifs at h with hn
    · obtain ⟨⟨c', m⟩, -, h⟩ := Except.bind_eq_ok h
      dsimp only at h
      split_ifs at h
      · cases h
      · cases h
        exact ⟨rfl, by simp only [List.length_drop]; omega⟩
    · cases h
      exact ⟨rfl, le_rfl⟩
  · cases h
    exact ⟨rfl, le_rfl⟩

/-- A character of `nextpart` consumes bytes of the specification. -/
theorem trNextpart_shorter {enc : Encoding} {t t' : Tr} {c : UInt32}
    (h : trNextpart enc t = .ok (c, t')) (hc : c ≠ errc) : t'.p.length < t.p.length := by
  unfold trNextpart at h
  split_ifs at h with hp
  · cases h
    exact absurd rfl hc
  obtain ⟨⟨now, n⟩, hcp, h⟩ := Except.bind_eq_ok h
  obtain ⟨hne, hn⟩ := codepointLen_pos hcp
  have hle := length_trSkipBackslash_le enc t.p
  have hpos := List.length_pos_of_ne_nil hne
  have hrange := (trRange_ok h).2
  simp only [List.length_drop] at hrange
  omega

/-- **Every character `trnext` hands out brings the end closer.** -/
theorem trnext_decreases {enc : Encoding} {t t' : Tr} {c : UInt32}
    (h : trnext enc t = .ok (c, t')) (hc : c ≠ errc) :
    Prod.Lex (· < ·) (· < ·) t'.measure t.measure := by
  unfold trnext at h
  split_ifs at h with hgen
  · rcases hskip : trGenSkip enc t.now t.max with _ | now <;> rw [hskip] at h
    · -- `max` cannot be written: on to the next part
      have hshort := trNextpart_shorter h hc
      exact Prod.Lex.left _ _ hshort
    · dsimp only at h
      split_ifs at h with hlt
      · -- a code point inside the range
        cases h
        have hcloser := (trGenSkip_closer enc hskip).resolve_left (UInt32.ne_of_lt hlt)
        exact Prod.Lex.right _ (by simp [Tr.measure, hgen]; omega)
      · -- `max` ends the range
        cases h
        exact Prod.Lex.right _ (by simp [hgen])
  · have hshort := trNextpart_shorter h hc
    exact Prod.Lex.left _ _ hshort

/-- The characters of a specification: `trnext` until it returns `errc`. -/
def trChars (enc : Encoding) (t : Tr) : Except String (List UInt32) :=
  match h : trnext enc t with
  | .error e => .error e
  | .ok (c, t') => if hc : c = errc then .ok [] else (c :: ·) <$> trChars enc t'
termination_by t.measure
decreasing_by exact trnext_decreases h hc

theorem trChars_of_trnext {enc : Encoding} {t t' : Tr} {c : UInt32}
    (h : trnext enc t = .ok (c, t')) (hc : c ≠ errc) :
    trChars enc t = (c :: ·) <$> trChars enc t' := by
  rw [trChars]
  split
  · simp_all
  · rename_i c' t'' h'
    obtain ⟨rfl, rfl⟩ := Prod.mk.inj (Except.ok.inj (h.symm.trans h'))
    rw [dif_neg hc]

theorem trChars_of_errc {enc : Encoding} {t t' : Tr} (h : trnext enc t = .ok (errc, t')) :
    trChars enc t = .ok [] := by
  rw [trChars]
  split
  · simp_all
  · rename_i c' t'' h'
    obtain ⟨rfl, rfl⟩ := Prod.mk.inj (Except.ok.inj (h.symm.trans h'))
    rw [dif_pos rfl]

/-- A specification of one character. -/
theorem trChars_of_single {enc : Encoding} {t t' t'' : Tr} {c : UInt32}
    (h : trnext enc t = .ok (c, t')) (hc : c ≠ errc) (hend : trnext enc t' = .ok (errc, t'')) :
    trChars enc t = .ok [c] := by
  rw [trChars_of_trnext h hc, trChars_of_errc hend]
  rfl

end CRuby.Str
