import CRuby.Num.ParseInt
import CRuby.Str.Succ
import CRuby.Lib.Binary64
import CRuby.Lib.Except

/-!
# `rb_cstr_to_dbl` (object.c)

`rb_cstr_to_dbl(p, badcheck)` skips spaces and calls `strtod`. If `strtod` stopped before the
end, typically at an underscore, the string is copied into `char buf[DBL_DIG * 4 + 10]` while
each underscore between two digits is dropped and any other one rejected (`badcheck`) or ends
the copy; `strtod` then reads the buffer. The copy keeps at most `sizeof(buf) - 1 = 69` bytes:
every byte after them is read, checked and dropped. When the string fits, the buffer is the
string with its underscores deleted (`scrub_eq_filter`, `rbCstrToDbl_of_fits`). When it does
not, the digits past the 69th are lost without an error, and `"1_" + "0" * 100` is read as
`1e68`.

`strtod` is `ruby_strtod` of util.c, David Gay's correctly rounded conversion, taken here as a
parameter: a function from the string to the double read (its value, `Binary64`) and the
number of bytes it consumed. Each result states what it asks of it (`StopsAtUnderscore`,
`ReadsDigits`). A string is the list of its bytes before the NUL.
-/

namespace CRuby.Num

open CRuby.Util CRuby.Str

/-- `DBL_DIG`. -/
def dblDig : ℕ := 15

/-- `sizeof(buf)`: `DBL_DIG * 4 + 10`. -/
def bufSize : ℕ := dblDig * 4 + 10

/-- `rb_invalid_str(q, "Float()")`, which raises `ArgumentError` with this text and the
inspected string. -/
def invalidFloat : String := "invalid value for Float()"

/-- `p[0] == '0' && (p[1] == 'x' || p[1] == 'X')`. -/
def isHexPrefix (p : List UInt8) : Bool :=
  p.getD 0 0 == '0'.toUInt8 && (p.getD 1 0 == 'x'.toUInt8 || p.getD 1 0 == 'X'.toUInt8)

/-- The underscore loop `while (*p) { ... }` after the first `strtod`: `buf` is what the buffer
holds, `prev` the last byte read, `cap = sizeof(buf) - 1` its room. An underscore is skipped
when the buffer is not empty, `prev` is a digit and so is the next byte; otherwise `badcheck`
raises and the loop ends. Every byte read is copied while there is room. -/
def scrub (badcheck : Bool) (cap : ℕ) : List UInt8 → UInt8 → List UInt8 → Except String (List UInt8)
  | buf, _, [] => .ok buf
  | buf, _, [c] =>
    -- an underscore last: `++p` reaches the NUL, which is no digit
    if c = '_'.toUInt8 then
      if badcheck then .error invalidFloat else .ok buf
    else .ok (if buf.length < cap then buf ++ [c] else buf)
  | buf, prev, c :: d :: ds =>
    if c = '_'.toUInt8 then
      if buf = [] ∨ asciiDigit prev = false ∨ asciiDigit d = false then
        if badcheck then .error invalidFloat else .ok buf
      else scrub badcheck cap (if buf.length < cap then buf ++ [d] else buf) d ds
    else scrub badcheck cap (if buf.length < cap then buf ++ [c] else buf) c (d :: ds)

/-- The part of `rb_cstr_to_dbl` after `*n = '\0'; p = buf;`: the second `strtod` and, with
`badcheck`, the test that only spaces follow what it read. -/
def cstrToDblBuf (strtod : List UInt8 → ℚ × ℕ) (buf : List UInt8) (badcheck : Bool) :
    Except String ℚ :=
  if !badcheck && isHexPrefix buf then .ok 0
  else
    let (d, e) := strtod buf
    if badcheck && (e = 0 || (buf.drop e).dropWhile isSpace ≠ []) then .error invalidFloat
    else .ok d

/-- `rb_cstr_to_dbl(p, badcheck)`. The `ERANGE` warnings do not change the result and are left
out. -/
def rbCstrToDbl (strtod : List UInt8 → ℚ × ℕ) (s : List UInt8) (badcheck : Bool) :
    Except String ℚ :=
  let p := s.dropWhile isSpace
  if !badcheck && isHexPrefix p then .ok 0
  else
    let (d, e) := strtod p
    if e = 0 then (if badcheck then .error invalidFloat else .ok d)
    else if p.length ≤ e then .ok d
    else do
      -- `while (p < end && n < e) prev = *n++ = *p++;`
      let k := min e (bufSize - 1)
      let buf ← scrub badcheck (bufSize - 1) (p.take k) ((p.take k).getLastD 0) (p.drop k)
      cstrToDblBuf strtod buf badcheck

/-! ### What `strtod` is asked for -/

/-- `strtod` reads no more than the string and never an underscore: no form of a number it
reads has one. -/
def StopsAtUnderscore (strtod : List UInt8 → ℚ × ℕ) : Prop :=
  ∀ s, (strtod s).2 ≤ s.length ∧ '_'.toUInt8 ∉ s.take (strtod s).2

/-- `strtod` reads a run of at most 308 decimal digits that starts with a nonzero digit and is
followed by no digit, `.`, `e` or `E` as that integer rounded to a double, and stops after it. -/
def ReadsDigits (strtod : List UInt8 → ℚ × ℕ) : Prop :=
  ∀ ds rest : List UInt8, ds ≠ [] → ds.length ≤ 308 → (∀ c ∈ ds, asciiDigit c = true) →
    ds.head? ≠ some '0'.toUInt8 →
    (∀ c ∈ rest.head?, asciiDigit c = false ∧ c ≠ '.'.toUInt8 ∧ c ≠ 'e'.toUInt8 ∧ c ≠ 'E'.toUInt8) →
    strtod (ds ++ rest) = (Binary64.round (digitsValue 10 ds), ds.length)

/-- Reading the longest run of digits, the simplest `strtod` that reads digits. -/
def digitsStrtod (s : List UInt8) : ℚ × ℕ :=
  let ds := s.takeWhile asciiDigit
  (Binary64.round (digitsValue 10 ds), ds.length)

theorem digitsStrtod_readsDigits : ReadsDigits digitsStrtod := by
  intro ds rest _ _ hds _ hrest
  have htake : (ds ++ rest).takeWhile asciiDigit = ds := by
    rw [List.takeWhile_append_of_pos hds]
    cases rest with
    | nil => simp
    | cons c cs => simp [(hrest c rfl).1]
  simp [digitsStrtod, htake]

/-! ### The copy loop -/

/-- The underscores of `rest` stand each between two digits, the first after `prev`. -/
def underscoresOk (prev : UInt8) : List UInt8 → Bool
  | [] => true
  | [c] => c != '_'.toUInt8
  | c :: d :: ds =>
    if c = '_'.toUInt8 then asciiDigit prev && asciiDigit d && underscoresOk d ds
    else underscoresOk c (d :: ds)

/-- When all it keeps fits, the copy loop deletes exactly the underscores. The induction
follows the loop: an underscore consumes the digit after it. -/
theorem scrub_eq_filter (badcheck : Bool) (cap : ℕ) :
    ∀ (buf : List UInt8) (prev : UInt8) (rest : List UInt8), buf ≠ [] → underscoresOk prev rest →
      buf.length + (rest.filter (· != '_'.toUInt8)).length ≤ cap →
      scrub badcheck cap buf prev rest = .ok (buf ++ rest.filter (· != '_'.toUInt8))
  | buf, _, [], _, _, _ => by simp [scrub]
  | buf, prev, [c], _, hok, hfit => by
    have hc : c ≠ '_'.toUInt8 := by simpa [underscoresOk] using hok
    have hroom : buf.length < cap := by simp [hc] at hfit; omega
    simp [scrub, hc, hroom]
  | buf, prev, c :: d :: ds, hbuf, hok, hfit => by
    by_cases hc : c = '_'.toUInt8
    · -- `_` then the digit `d`, which is copied
      subst hc
      simp only [underscoresOk, if_true, Bool.and_eq_true] at hok
      obtain ⟨⟨hp, hd⟩, hok⟩ := hok
      have hd_ne : d ≠ '_'.toUInt8 := by rintro rfl; exact absurd hd (by decide)
      have hroom : buf.length < cap := by simp [hd_ne] at hfit; omega
      rw [scrub, if_pos rfl, if_neg (by simp [hbuf, hp, hd]), if_pos hroom,
        scrub_eq_filter badcheck cap _ d ds (by simp) hok (by simp [hd_ne] at hfit ⊢; omega)]
      simp [hd_ne]
    · simp only [underscoresOk, if_neg hc] at hok
      have hroom : buf.length < cap := by simp [hc] at hfit; omega
      rw [scrub, if_neg hc, if_pos hroom,
        scrub_eq_filter badcheck cap _ c (d :: ds) (by simp) hok (by simp [hc] at hfit ⊢; omega)]
      simp [hc]

/-- Without underscores the loop copies what fits and reads the rest in vain. -/
theorem scrub_of_no_underscore (badcheck : Bool) (cap : ℕ) :
    ∀ (buf : List UInt8) (prev : UInt8) (rest : List UInt8), '_'.toUInt8 ∉ rest →
      scrub badcheck cap buf prev rest = .ok (buf ++ rest.take (cap - buf.length))
  | buf, _, [], _ => by simp [scrub]
  | buf, prev, [c], h => by
    have hc : c ≠ '_'.toUInt8 := fun h' => h (by simp [h'])
    simp only [scrub, if_neg hc]
    split_ifs with hroom
    · rw [List.take_of_length_le (by simp; omega)]
    · rw [show cap - buf.length = 0 by omega]
      simp
  | buf, prev, c :: d :: ds, h => by
    have hc : c ≠ '_'.toUInt8 := fun h' => h (by simp [h'])
    rw [scrub, if_neg hc, scrub_of_no_underscore badcheck cap _ c (d :: ds) (fun h' => h (List.mem_cons_of_mem _ h'))]
    split_ifs with hroom
    · obtain ⟨n, hn⟩ : ∃ n, cap - buf.length = n + 1 := ⟨cap - buf.length - 1, by omega⟩
      rw [hn, List.take_succ_cons, List.length_append, List.length_singleton,
        show cap - (buf.length + 1) = n by omega]
      simp
    · rw [show cap - buf.length = 0 by omega]
      simp

/-- An underscore-free prefix passes its last byte on as `prev`. -/
theorem underscoresOk_append {prev : UInt8} :
    ∀ (xs ys : List UInt8), xs ≠ [] → '_'.toUInt8 ∉ xs → underscoresOk prev (xs ++ ys) →
      underscoresOk (xs.getLastD 0) ys
  | [x], ys, _, hx, h => by
    have hx' : x ≠ '_'.toUInt8 := fun h' => hx (by simp [h'])
    cases ys with
    | nil => rfl
    | cons y ys => simpa [underscoresOk, hx'] using h
  | x :: x' :: xs, ys, _, hx, h => by
    have hx' : x ≠ '_'.toUInt8 := fun h' => hx (h' ▸ List.mem_cons_self)
    simp only [List.cons_append, underscoresOk, if_neg hx'] at h
    have := underscoresOk_append (x' :: xs) ys (by simp) (fun h' => hx (List.mem_cons_of_mem _ h')) h
    simpa [List.getLastD_eq_getLast?] using this

/-! ### The whole function -/

/-- **The buffer is the string without its underscores** when it fits: where `strtod` stops
before the end, and the string after the spaces has at most `sizeof(buf) - 1` bytes and its
underscores between digits, `rb_cstr_to_dbl` reads it as `strtod` reads it with the underscores
deleted. -/
theorem rbCstrToDbl_of_fits {strtod : List UInt8 → ℚ × ℕ} (hs : StopsAtUnderscore strtod)
    {s : List UInt8} {badcheck : Bool} (hhex : isHexPrefix (s.dropWhile isSpace) = false)
    (hstop : 0 < (strtod (s.dropWhile isSpace)).2)
    (hend : (strtod (s.dropWhile isSpace)).2 < (s.dropWhile isSpace).length)
    (hok : underscoresOk 0 (s.dropWhile isSpace))
    (hfit : (s.dropWhile isSpace).length ≤ bufSize - 1) :
    rbCstrToDbl strtod s badcheck =
      cstrToDblBuf strtod ((s.dropWhile isSpace).filter (· != '_'.toUInt8)) badcheck := by
  set p := s.dropWhile isSpace with hp
  obtain ⟨-, hnone⟩ := hs p
  set e := (strtod p).2 with he
  have hk : min e (bufSize - 1) = e := by omega
  -- the prefix `strtod` read holds no underscore, so the buffer starts as it does
  have hpre : (p.take e).filter (· != '_'.toUInt8) = p.take e := by
    rw [List.filter_eq_self]
    intro c hc
    have : c ≠ '_'.toUInt8 := fun h => hnone (h ▸ hc)
    simpa using this
  have hne : p.take e ≠ [] := List.ne_nil_of_length_pos (by simp; omega)
  have hrest := underscoresOk_append (p.take e) (p.drop e) hne hnone (by rwa [List.take_append_drop])
  have hscrub := scrub_eq_filter badcheck (bufSize - 1) (p.take e) _ (p.drop e) hne hrest (by
    have := List.length_filter_le (· != '_'.toUInt8) (p.drop e)
    simp only [List.length_take, List.length_drop] at this ⊢
    omega)
  have hbuf : p.take e ++ (p.drop e).filter (· != '_'.toUInt8) = p.filter (· != '_'.toUInt8) := by
    conv_rhs => rw [← List.take_append_drop e p, List.filter_append, hpre]
  simp only [rbCstrToDbl, ← hp, hhex, Bool.and_false, Bool.false_eq_true, if_false]
  rw [if_neg (by omega), if_neg (by omega), hk, hscrub, hbuf]
  rfl

theorem digitsValue_zeros (acc : ℕ) :
    ∀ k, (List.replicate k '0'.toUInt8).foldl (digitStep 10) acc = acc * 10 ^ k
  | 0 => by simp
  | k + 1 => by
    rw [List.replicate_succ, List.foldl_cons, digitsValue_zeros _ k]
    simp only [digitStep, show rubyDigit36ToNumberTable '0'.toUInt8 = some 0 from rfl, Option.elim]
    ring

theorem digitsValue_one_zeros (k : ℕ) :
    digitsValue 10 ('1'.toUInt8 :: List.replicate k '0'.toUInt8) = 10 ^ k := by
  rw [digitsValue, List.foldl_cons, digitsValue_zeros]
  simp [digitStep, show rubyDigit36ToNumberTable '1'.toUInt8 = some 1 from rfl]

/-- A `strtod` that reads digits reads `1` and `k` zeros as `10^k`. -/
theorem ReadsDigits.one_zeros {strtod : List UInt8 → ℚ × ℕ} (hs : ReadsDigits strtod) {k : ℕ}
    (hk : k ≤ 307) (rest : List UInt8)
    (hrest : ∀ c ∈ rest.head?, asciiDigit c = false ∧ c ≠ '.'.toUInt8 ∧ c ≠ 'e'.toUInt8 ∧ c ≠ 'E'.toUInt8) :
    strtod ('1'.toUInt8 :: List.replicate k '0'.toUInt8 ++ rest) = (Binary64.round (10 ^ k), k + 1) := by
  have hdig : ∀ c ∈ '1'.toUInt8 :: List.replicate k '0'.toUInt8, asciiDigit c = true := by
    intro c hc
    simp only [List.mem_cons, List.mem_replicate] at hc
    rcases hc with rfl | ⟨-, rfl⟩ <;> rfl
  have := hs _ rest (by simp) (by simp; omega) hdig (by simp; decide) hrest
  rw [this, digitsValue_one_zeros]
  simp

/-- With the buffer full after `1` and 68 zeros, the remaining 32 zeros are dropped. -/
theorem scrub_one_underscore_zeros (badcheck : Bool) :
    scrub badcheck (bufSize - 1) ['1'.toUInt8] '1'.toUInt8 ('_'.toUInt8 :: List.replicate 100 '0'.toUInt8) =
      .ok ('1'.toUInt8 :: List.replicate 68 '0'.toUInt8) := by
  -- the underscore consumes the first zero, then no underscore is left
  rw [show List.replicate 100 '0'.toUInt8 = '0'.toUInt8 :: List.replicate 99 '0'.toUInt8 from rfl,
    scrub, if_pos rfl, if_neg (by decide), if_pos (by decide),
    scrub_of_no_underscore _ _ _ _ _ (by simp; decide)]
  simp [bufSize, dblDig]

/-- The double nearest `10^68` is not the one nearest `10^100`. -/
theorem round_ten_pow_68_ne : Binary64.round (10 ^ 68) ≠ Binary64.round (10 ^ 100) := by
  have h1 := Binary64.round_le_two_mul (x := 10 ^ 68) (by norm_num)
  have h2 := (Binary64.round_bounds_of_pos (x := 10 ^ 100) (by norm_num)).1
  intro h
  rw [h] at h1
  norm_num at h1 h2
  linarith

/-- `"1_" + "0" * 100` has its underscore between digits; without it, it is `10^100`. For
every `strtod` that reads digits as `ruby_strtod` does, `rb_cstr_to_dbl` answers `1e68`,
with or without `badcheck`: the buffer kept `1` and 68 zeros. -/
theorem cstr_to_dbl_drops_digits_past_buffer {strtod : List UInt8 → ℚ × ℕ} (hs : ReadsDigits strtod)
    (badcheck : Bool) :
    rbCstrToDbl strtod ('1'.toUInt8 :: '_'.toUInt8 :: List.replicate 100 '0'.toUInt8) badcheck =
        .ok (Binary64.round (10 ^ 68)) ∧
      strtod ('1'.toUInt8 :: List.replicate 100 '0'.toUInt8) = (Binary64.round (10 ^ 100), 101) ∧
      Binary64.round (10 ^ 68) ≠ Binary64.round (10 ^ 100) := by
  -- the first `strtod` stops at the underscore, the second reads the full buffer
  have hfirst := hs.one_zeros (k := 0) (by norm_num) ('_'.toUInt8 :: List.replicate 100 '0'.toUInt8)
    (by simp; decide)
  have hbuf := hs.one_zeros (k := 68) (by norm_num) [] (by simp)
  have hall := hs.one_zeros (k := 100) (by norm_num) [] (by simp)
  simp only [List.replicate_zero, List.append_nil, List.cons_append, List.nil_append] at hfirst hbuf hall
  refine ⟨?_, hall, round_ten_pow_68_ne⟩
  simp only [rbCstrToDbl, show List.dropWhile isSpace ('1'.toUInt8 :: '_'.toUInt8 :: List.replicate 100 '0'.toUInt8) =
    '1'.toUInt8 :: '_'.toUInt8 :: List.replicate 100 '0'.toUInt8 from rfl, hfirst]
  have hhex : isHexPrefix ('1'.toUInt8 :: '_'.toUInt8 :: List.replicate 100 '0'.toUInt8) = false := rfl
  have hbufhex : isHexPrefix ('1'.toUInt8 :: List.replicate 68 '0'.toUInt8) = false := rfl
  simp only [hhex, Bool.and_false, Bool.false_eq_true, if_false, zero_add, one_ne_zero,
    List.length_cons, List.length_replicate]
  rw [if_neg (by norm_num), show min 1 (bufSize - 1) = 1 from rfl, List.take_succ_cons, List.take_zero,
    List.drop_succ_cons, List.drop_zero, show ['1'.toUInt8].getLastD 0 = '1'.toUInt8 from rfl,
    scrub_one_underscore_zeros]
  simp only [bind, Except.bind, cstrToDblBuf, hbufhex, hbuf]
  -- the second `strtod` read the whole buffer, so `badcheck` finds nothing after it
  simp

theorem cstr_to_dbl_drops_digits_of_digitsStrtod :
    ReadsDigits digitsStrtod ∧
      (rbCstrToDbl digitsStrtod ('1'.toUInt8 :: '_'.toUInt8 :: List.replicate 100 '0'.toUInt8) true =
          .ok (Binary64.round (10 ^ 68)) ∧
        digitsStrtod ('1'.toUInt8 :: List.replicate 100 '0'.toUInt8) = (Binary64.round (10 ^ 100), 101) ∧
        Binary64.round (10 ^ 68) ≠ Binary64.round (10 ^ 100)) :=
  ⟨digitsStrtod_readsDigits, cstr_to_dbl_drops_digits_past_buffer digitsStrtod_readsDigits true⟩

end CRuby.Num
