import CRuby.Enc.Utf8
import CRuby.Lib.Except

/-!
# `rb_memsearch` (re.c)

`rb_memsearch(x, m, y, n, enc)` finds the pattern `x` in the text `y`: by `memchr` for `m = 1`,
by a rolling compare of `m ≤ SIZEOF_VALUE` bytes packed into a `VALUE` (`rbMemsearchSs`), by
comparing at every character start for `mbminlen` 2 and 4 (`charSearch`), and otherwise by
Quick Search (`qsSearch`): after a failed compare at `y`, the window moves by
`qstable[c]`, where `c` is computed from the text at `y + m` and `qstable[c]` is the distance
from the end of the pattern of the last pattern position with the same `c`.

Plain Quick Search takes `c` to be one byte. The UTF-8 variant hashes the whole character that
starts there (`qsUtf8Hash`), reading up to three bytes after it, on the pattern's side for
every position, the last ones included, and on the text's side at `y[m]`, which may be the
last byte. A read is modelled as what it may touch: `x[0..m)` of the pattern (`readPat`), and
`y[0..n)` and the terminator `y[n] = 0` of the text (`readText`); anything else is an error
of the model, so a result `.ok r` says that the search read only inside its buffers.

The skip is sound whenever the hashes of the text and of the pattern agree on every
alignment that matches (`qsSearch_spec`): a match at distance `d < qstable[c]` would have put
the pattern position `m - d` in the table with a shift at most `d`. For single bytes they agree,
so `rb_memsearch_qs` returns the first occurrence for every pattern and text
(`rbMemsearchQs_spec`). The UTF-8 hash of a pattern that ends inside a character reads past the
pattern, `aaaaaaaa\xE3` already while the table is filled.
-/

namespace CRuby.Str

open CRuby.Enc

/-- `SIZEOF_VALUE` on an LP64 build. -/
def sizeofValue : ℕ := 8

/-! ### Reads -/

/-- A read of the pattern: `x[0..m)` only. -/
def readPat (x : List UInt8) (i : ℕ) : Except String UInt8 :=
  match x[i]? with
  | some b => .ok b
  | none => .error "read past the pattern"

/-- A read of the text: `y[0..n)` and the terminator at `y[n]`, which is `0`. -/
def readText (y : List UInt8) (i : ℕ) : Except String UInt8 :=
  match y[i]? with
  | some b => .ok b
  | none => if i = y.length then .ok 0 else .error "read past the text"

/-- `rb_memsearch_qs_utf8_hash(x + p)` in `unsigned int` arithmetic, reading through `rd`: a
byte below `0xC0` or from `0xF5` on indexes the upper half of the table, a lead byte the lower
half with its whole character mixed in. -/
def qsUtf8Hash (rd : ℕ → Except String UInt8) (p : ℕ) : Except String ℕ := do
  let mix : UInt32 := 8353
  let h := (← rd p).toUInt32
  if h < 0xC0 then return (h + 256).toNat
  else if h < 0xE0 then
    let h := h * mix + (← rd (p + 1)).toUInt32
    return h.toUInt8.toNat
  else if h < 0xF0 then
    let h := h * mix + (← rd (p + 1)).toUInt32
    let h := h * mix + (← rd (p + 2)).toUInt32
    return h.toUInt8.toNat
  else if h < 0xF5 then
    let h := h * mix + (← rd (p + 1)).toUInt32
    let h := h * mix + (← rd (p + 2)).toUInt32
    let h := h * mix + (← rd (p + 3)).toUInt32
    return h.toUInt8.toNat
  else return (h + 256).toNat

/-- The byte itself, the index of plain Quick Search. -/
def byteHash (rd : ℕ → Except String UInt8) (p : ℕ) : Except String ℕ :=
  (fun b => b.toNat) <$> rd p

/-! ### Quick Search -/

/-- A Quick-Search shift table: every shift is at least one. -/
def QsTable := {t : ℕ → ℕ // ∀ i, 0 < t i}

/-- `qstable[i] = m + 1` for every `i`. -/
def QsTable.init (m : ℕ) : QsTable := ⟨fun _ => m + 1, fun _ => Nat.succ_pos m⟩

/-- `qstable[i] = v` for a shift `v > 0`. -/
def QsTable.set (t : QsTable) (i v : ℕ) (hv : 0 < v) : QsTable :=
  ⟨Function.update t.1 i v, fun j => by
    rw [Function.update_apply]
    split_ifs
    · exact hv
    · exact t.2 j⟩

/-- `for (; x < xe; ++x) qstable[hash(x)] = xe - x`, the `k` positions from `p` on. -/
def qsTableFill (hash : ℕ → Except String ℕ) (m : ℕ) : ℕ → ℕ → QsTable → Except String QsTable
  | 0, _, t => .ok t
  | k + 1, p, t =>
    if hp : p < m then do
      let h ← hash p
      qsTableFill hash m k (p + 1) (t.set h (m - p) (Nat.sub_pos_of_lt hp))
    else .ok t

/-- The search loop of `rb_memsearch_qs` and `rb_memsearch_qs_utf8` from `pos = y - ys`:
`*xs == *y && memcmp(xs, y, m) == 0` at `pos`, else move by the table at the hash of the text
at `pos + m`. -/
def qsSearch (x y : List UInt8) (hash : ℕ → Except String ℕ) (t : QsTable) (pos : ℕ) :
    Except String ℤ :=
  if hpos : pos + x.length ≤ y.length then
    if (y.drop pos).take x.length = x then .ok pos
    else do
      let h ← hash (pos + x.length)
      qsSearch x y hash t (pos + t.1 h)
  else .ok (-1)
termination_by y.length + 1 - pos
decreasing_by have := t.2 h; omega

/-- `rb_memsearch_qs(xs, m, ys, n)`. -/
def rbMemsearchQs (x y : List UInt8) : Except String ℤ := do
  let t ← qsTableFill (byteHash (readPat x)) x.length x.length 0 (QsTable.init x.length)
  qsSearch x y (byteHash (readText y)) t 0

/-- `rb_memsearch_qs_utf8(xs, m, ys, n)`. -/
def rbMemsearchQsUtf8 (x y : List UInt8) : Except String ℤ := do
  let t ← qsTableFill (qsUtf8Hash (readPat x)) x.length x.length 0 (QsTable.init x.length)
  qsSearch x y (qsUtf8Hash (readText y)) t 0

/-! ### The other paths -/

/-- `memchr(y, c, k)`: the first index below `k` that holds `c`. -/
def memchr (y : List UInt8) (c : UInt8) (k : ℕ) : Option ℕ :=
  (y.take k).findIdx? (· == c)

/-- `hx = *x++; ... hx <<= CHAR_BIT; hx |= *x;`: the bytes packed into a `VALUE`. -/
def packBytes (bs : List UInt8) : UInt64 :=
  bs.foldl (fun h b => (h <<< 8) ||| b.toUInt64) 0

/-- `while (hx != hy) { if (y == ye) return -1; hy = (hy << CHAR_BIT | *y) & mask; y++; }`,
with `pos = y - ys`. -/
def ssLoop (y : List UInt8) (m : ℕ) (mask hx hy : UInt64) (pos : ℕ) : ℤ :=
  if hx = hy then (pos : ℤ) - m
  else if h : pos < y.length then
    ssLoop y m mask hx (((hy <<< 8) ||| (y.get ⟨pos, h⟩).toUInt64) &&& mask) (pos + 1)
  else -1
termination_by y.length - pos

/-- `rb_memsearch_ss(xs, m, ys, n)` without `memmem`, for `2 ≤ m ≤ SIZEOF_VALUE`: the first
candidate from `memchr`, then the rolling compare of the packed windows. -/
def rbMemsearchSs (x y : List UInt8) : ℤ :=
  let m := x.length
  let mask : UInt64 := 0xFFFFFFFFFFFFFFFF >>> ((sizeofValue - m) * 8).toUInt64
  match memchr y (x.headD 0) (y.length - m + 1) with
  | none => -1
  | some c => ssLoop y m mask (packBytes x) (packBytes ((y.drop c).take m)) (c + m)

/-- `rb_memsearch_wchar` (`cs = 2`) and `rb_memsearch_qchar` (`cs = 4`) from `pos`: compare at
every multiple of the character size. -/
def charSearch (cs : ℕ) [NeZero cs] (x y : List UInt8) (pos : ℕ) : ℤ :=
  if hpos : pos + x.length ≤ y.length then
    if (y.drop pos).take x.length = x then pos
    else charSearch cs x y (pos + cs)
  else -1
termination_by y.length + 1 - pos
decreasing_by have := NeZero.pos cs; omega

/-- `rb_memsearch_wchar(xs, m, ys, n)`. -/
def rbMemsearchWchar (x y : List UInt8) : ℤ := charSearch 2 x y 0

/-- `rb_memsearch_qchar(xs, m, ys, n)`. -/
def rbMemsearchQchar (x y : List UInt8) : ℤ := charSearch 4 x y 0

/-- `rb_memsearch(x, m, y, n, enc)`. -/
def rbMemsearch (x y : List UInt8) (enc : Encoding) : Except String ℤ :=
  let m := x.length
  let n := y.length
  if m > n then .ok (-1)
  else if m = n then .ok (if x = y then 0 else -1)
  else if m < 1 then .ok 0
  else if m = 1 then
    match memchr y (x.headD 0) n with
    | some i => .ok i
    | none => .ok (-1)
  else if enc.minEncLen = 1 then
    if m ≤ sizeofValue then .ok (rbMemsearchSs x y)
    else if enc.index = encindexUtf8 then rbMemsearchQsUtf8 x y
    else rbMemsearchQs x y
  else if enc.minEncLen = 2 then .ok (rbMemsearchWchar x y)
  else if enc.minEncLen = 4 then .ok (rbMemsearchQchar x y)
  else rbMemsearchQs x y

/-! ### What a search should answer -/

/-- The pattern occurs in the text at `j`. -/
def MatchAt (x y : List UInt8) (j : ℕ) : Prop :=
  j + x.length ≤ y.length ∧ (y.drop j).take x.length = x

instance (x y : List UInt8) (j : ℕ) : Decidable (MatchAt x y j) :=
  inferInstanceAs (Decidable (_ ∧ _))

/-- `r` is the first occurrence of the pattern, or `-1` if there is none. -/
def IsFirstMatch (x y : List UInt8) (r : ℤ) : Prop :=
  (0 ≤ r ∧ MatchAt x y r.toNat ∧ ∀ j < r.toNat, ¬MatchAt x y j) ∨ (r = -1 ∧ ∀ j, ¬MatchAt x y j)

/-- A match at `j` fixes every byte of the text in the window. -/
theorem MatchAt.getElem? {x y : List UInt8} {j : ℕ} (h : MatchAt x y j) {q : ℕ} (hq : q < x.length) :
    y[j + q]? = x[q]? := by
  rw [← h.2, List.getElem?_take_of_lt hq, List.getElem?_drop]

/-! ### The table -/

section Table

variable {hash : ℕ → Except String ℕ} {m : ℕ}

/-- What the filled table promises: no shift above `m + 1`, and for every position `q` filled
so far, the shift at its hash is at most its distance `m - q` from the end. -/
structure TableInv (hash : ℕ → Except String ℕ) (m p : ℕ) (t : QsTable) : Prop where
  le : ∀ i, t.1 i ≤ m + 1
  near : ∀ q < p, ∀ h, hash q = .ok h → t.1 h ≤ m - q

theorem TableInv.init : TableInv hash m 0 (QsTable.init m) :=
  ⟨fun _ => le_rfl, fun _ hq => absurd hq (Nat.not_lt_zero _)⟩

/-- Filling position `p` keeps the invariant: later positions give smaller shifts. -/
theorem TableInv.set {p h : ℕ} {t : QsTable} (hi : TableInv hash m p t) (hp : p < m)
    (hh : hash p = .ok h) : TableInv hash m (p + 1) (t.set h (m - p) (Nat.sub_pos_of_lt hp)) where
  le i := by
    simp only [QsTable.set, Function.update_apply]
    split_ifs
    · omega
    · exact hi.le i
  near q hq h' hq' := by
    simp only [QsTable.set, Function.update_apply]
    split_ifs with hsame
    · omega
    · rcases Nat.lt_succ_iff_lt_or_eq.mp hq with hq | rfl
      · exact hi.near q hq h' hq'
      · exact absurd (Except.ok.inj (hh.symm.trans hq')) (Ne.symm hsame)

theorem qsTableFill_spec :
    ∀ (k p : ℕ) (t : QsTable) (t' : QsTable), p + k = m → TableInv hash m p t →
      qsTableFill hash m k p t = .ok t' → TableInv hash m m t'
  | 0, p, t, t', hk, hi, h => by
    cases h
    simpa [← hk] using hi
  | k + 1, p, t, t', hk, hi, h => by
    have hp : p < m := by omega
    simp only [qsTableFill, dif_pos hp] at h
    obtain ⟨h0, hh, h⟩ := Except.bind_eq_ok h
    exact qsTableFill_spec k (p + 1) _ t' (by omega) (hi.set hp hh) h

/-- Filling never fails where every position hashes. -/
theorem qsTableFill_ok (hok : ∀ q < m, ∃ h, hash q = .ok h) :
    ∀ (k p : ℕ) (t : QsTable), p + k = m → ∃ t', qsTableFill hash m k p t = .ok t'
  | 0, _, t, _ => ⟨t, rfl⟩
  | k + 1, p, t, hk => by
    have hp : p < m := by omega
    obtain ⟨h, hh⟩ := hok p hp
    simp only [qsTableFill, dif_pos hp, hh]
    exact qsTableFill_ok hok k (p + 1) _ (by omega)

end Table

/-! ### The search loop -/

section Search

variable {x y : List UInt8} {hashX hashY : ℕ → Except String ℕ} {t : QsTable}

/-- The skip: after a failed compare at `pos`, no occurrence starts strictly between `pos` and
`pos + qstable[c]`, provided the hashes agree on matching alignments. -/
theorem qs_skip (ht : TableInv hashX x.length x.length t)
    (hagree : ∀ j q, MatchAt x y j → q < x.length → hashY (j + q) = hashX q)
    {pos h d : ℕ} (hh : hashY (pos + x.length) = .ok h) (hd0 : 0 < d) (hd : d < t.1 h) :
    ¬MatchAt x y (pos + d) := by
  intro hm
  have hdm : d ≤ x.length := by have := ht.le h; omega
  have hq : x.length - d < x.length := by omega
  -- the text at `pos + m` is pattern position `m - d` of the match at `pos + d`
  have hX : hashX (x.length - d) = .ok h := by
    rw [← hagree _ _ hm hq, show pos + d + (x.length - d) = pos + x.length by omega, hh]
  have := ht.near _ hq h hX
  omega

/-- **Quick Search finds the first occurrence**: started where no occurrence lies before
`pos`, the loop that returns answers the first occurrence or `-1`. The induction follows the
loop; each round extends the stretch known to be free of matches by the shift. -/
theorem qsSearch_spec (ht : TableInv hashX x.length x.length t)
    (hagree : ∀ j q, MatchAt x y j → q < x.length → hashY (j + q) = hashX q) (pos : ℕ) :
    ∀ r, (∀ j < pos, ¬MatchAt x y j) → qsSearch x y hashY t pos = .ok r → IsFirstMatch x y r := by
  intro r hfree hrun
  rw [qsSearch] at hrun
  split_ifs at hrun with hpos hcmp
  · -- a match at `pos`, the first one
    cases hrun
    exact .inl ⟨by omega, by simpa using ⟨hpos, hcmp⟩, by simpa using hfree⟩
  · obtain ⟨h, hh, hrun⟩ := Except.bind_eq_ok hrun
    refine qsSearch_spec ht hagree (pos + t.1 h) r (fun j hj => ?_) hrun
    rcases Nat.lt_or_ge j pos with hj' | hj'
    · exact hfree j hj'
    rcases Nat.eq_or_lt_of_le hj' with rfl | hj'
    · exact fun hm => hcmp hm.2
    · obtain ⟨d, rfl⟩ := Nat.exists_eq_add_of_le hj'.le
      exact qs_skip ht hagree hh (by omega) (by omega)
  · -- the window has run off the text: no occurrence from `pos` on either
    cases hrun
    refine .inr ⟨rfl, fun j hm => ?_⟩
    rcases Nat.lt_or_ge j pos with hj | hj
    · exact hfree j hj hm
    · exact hpos (by have := hm.1; omega)
termination_by y.length + 1 - pos
decreasing_by have := t.2 h; omega

/-- The loop returns whenever the text's hash can be read at the end of every window. -/
theorem qsSearch_ok (hok : ∀ i ≤ y.length, ∃ h, hashY i = .ok h) (pos : ℕ) :
    ∃ r, qsSearch x y hashY t pos = .ok r := by
  rw [qsSearch]
  split_ifs with hpos hcmp
  · exact ⟨_, rfl⟩
  · obtain ⟨h, hh⟩ := hok (pos + x.length) hpos
    simp only [hh, bind, Except.bind]
    exact qsSearch_ok hok (pos + t.1 h)
  · exact ⟨_, rfl⟩
termination_by y.length + 1 - pos
decreasing_by have := t.2 h; omega

end Search

/-! ### Plain Quick Search -/

theorem readPat_of_lt {x : List UInt8} {i : ℕ} (h : i < x.length) : readPat x i = .ok (x.get ⟨i, h⟩) := by
  simp [readPat, List.getElem?_eq_getElem h]

theorem readText_of_lt {y : List UInt8} {i : ℕ} (h : i < y.length) : readText y i = .ok (y.get ⟨i, h⟩) := by
  simp [readText, List.getElem?_eq_getElem h]

theorem readText_ok {y : List UInt8} {i : ℕ} (h : i ≤ y.length) : ∃ b, readText y i = .ok b := by
  rcases Nat.lt_or_eq_of_le h with h | rfl
  · exact ⟨_, readText_of_lt h⟩
  · exact ⟨0, by simp [readText]⟩

/-- On a matching alignment the text's byte is the pattern's. -/
theorem byteHash_agree {x y : List UInt8} {j q : ℕ} (hm : MatchAt x y j) (hq : q < x.length) :
    byteHash (readText y) (j + q) = byteHash (readPat x) q := by
  have hy : j + q < y.length := by have := hm.1; omega
  have := hm.getElem? hq
  rw [List.getElem?_eq_getElem hy, List.getElem?_eq_getElem hq, Option.some.injEq] at this
  simp [byteHash, readText_of_lt hy, readPat_of_lt hq, this]

/-- **`rb_memsearch_qs` returns the first occurrence** of every pattern in every text, and reads
only inside both. -/
theorem rbMemsearchQs_spec (x y : List UInt8) :
    ∃ r, rbMemsearchQs x y = .ok r ∧ IsFirstMatch x y r := by
  have hx : ∀ q < x.length, ∃ h, byteHash (readPat x) q = .ok h :=
    fun q hq => ⟨_, by simp [byteHash, readPat_of_lt hq]; rfl⟩
  have hy : ∀ i ≤ y.length, ∃ h, byteHash (readText y) i = .ok h := by
    intro i hi
    obtain ⟨b, hb⟩ := readText_ok hi
    exact ⟨_, by simp [byteHash, hb]; rfl⟩
  obtain ⟨t, ht⟩ := qsTableFill_ok hx x.length 0 (QsTable.init _) (by omega)
  have hinv := qsTableFill_spec x.length 0 _ t (by omega) TableInv.init ht
  obtain ⟨r, hr⟩ := @qsSearch_ok x y _ t hy 0
  refine ⟨r, by simp [rbMemsearchQs, ht, hr, bind, Except.bind], ?_⟩
  exact qsSearch_spec hinv (fun j q hm hq => byteHash_agree hm hq) 0 r
    (fun _ h => absurd h (Nat.not_lt_zero _)) hr

/-- `aaaaaaaa\xE3` searched in `aaaaaaaa\xE3bc` as UTF-8: the pattern is longer than a `VALUE`,
so the UTF-8 Quick Search fills its table, and the hash of the last pattern byte, a three-byte
lead, reads two bytes past the pattern. -/
theorem memsearch_utf8_reads_past_pattern :
    rbMemsearch [0x61, 0x61, 0x61, 0x61, 0x61, 0x61, 0x61, 0x61, 0xE3]
      [0x61, 0x61, 0x61, 0x61, 0x61, 0x61, 0x61, 0x61, 0xE3, 0x62, 0x63] utf8 =
      .error "read past the pattern" := by
  rfl

end CRuby.Str
