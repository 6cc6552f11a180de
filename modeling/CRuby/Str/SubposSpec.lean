import CRuby.Str.SubposWords
import CRuby.Enc.Utf32
import Mathlib.Tactic.IntervalCases

/-!
# `rb_str_subpos` on characters

A string that is valid in its encoding is the list `cs` of its characters, and its bytes are
`cs.flatten`; character `i` starts at byte `charOff cs i`. `CharSplit enc cs` says what the
encoding's functions find in those characters, as the encodings of Onigmo do in a string whose
coderange is `VALID`: `precise_mbc_enc_len` at a character's first byte finds the character, an
ASCII byte is a character of its own in an ASCII-compatible encoding, a character of UTF-8 is a
lead byte and continuation bytes, and `left_adjust_char_head` from the last byte of a character
finds its first.

`SubposSpec` states what `rb_str_subpos` is for, in characters; `rbStrSubpos_chars` proves that
the model meets it on every path, in an ASCII-compatible or fixed-width encoding, for a string
whose coderange is `7BIT` (its bytes are ASCII, as `coderange_scan` finds only in an
ASCII-compatible encoding) or `VALID`, at any address. Each path reduces to one lemma about
characters:

* one byte per character (`charOff_of_one`) for `single_byte_optimizable`;
* `prevEnds_chars` and `prevChars_chars` for the backward scan;
* `strStrlen_chars`, through `asciiCountLoop_chars` and the lead-byte count, for the count;
* `utf8NthLoop_chars` with `strUtf8Nth_eq` for UTF-8;
* `charOff_fixed` for a fixed width;
* `nthAsciiLoop_chars` and `nthAsciiLoop_past` for `str_nth_len`, whose ASCII runs are runs of
  one-byte characters (`ascii_run`).
-/

namespace CRuby.Str

open CRuby.Enc ByteWord

/-! ## Characters and where they start -/

/-- The byte where character `i` of `cs` starts; past the last character, the end. -/
def charOff (cs : List (List UInt8)) (i : ℕ) : ℕ := (cs.take i).flatten.length

variable {cs : List (List UInt8)}

@[simp]
theorem charOff_zero : charOff cs 0 = 0 := by
  simp [charOff]

theorem charOff_succ {i : ℕ} (hi : i < cs.length) :
    charOff cs (i + 1) = charOff cs i + cs[i].length := by
  rw [charOff, charOff, List.take_add_one, List.getElem?_eq_getElem hi, Option.toList_some,
    List.flatten_append, List.flatten_singleton, List.length_append]

theorem charOff_of_le {i : ℕ} (hi : cs.length ≤ i) : charOff cs i = cs.flatten.length := by
  rw [charOff, List.take_of_length_le hi]

theorem charOff_add (b k : ℕ) :
    charOff cs (b + k) = charOff cs b + ((cs.drop b).take k).flatten.length := by
  rw [charOff, charOff, List.take_add, List.flatten_append, List.length_append]

/-- The bytes of characters `b` to `b + k`, as many as there are. -/
theorem length_flatten_take_drop (b k : ℕ) :
    ((cs.drop b).take k).flatten.length = charOff cs (b + k) - charOff cs b := by
  rw [charOff_add]
  omega

theorem drop_charOff (i : ℕ) : cs.flatten.drop (charOff cs i) = (cs.drop i).flatten := by
  conv_lhs => arg 2; rw [← List.take_append_drop i cs, List.flatten_append]
  exact List.drop_left

/-- What is left from the start of character `i`, as `rb_enc_mbclen` and its kin are given it. -/
theorem rest_charOff (i : ℕ) :
    (cs.flatten.drop (charOff cs i)).take (cs.flatten.length - charOff cs i) =
      (cs.drop i).flatten := by
  rw [List.take_of_length_le (by simp), drop_charOff]

/-- The bytes of character `i` sit from `charOff cs i` on. -/
theorem getD_charOff {i j : ℕ} (hi : i < cs.length) (hj : j < cs[i].length) :
    cs.flatten.getD (charOff cs i + j) 0 = cs[i].getD j 0 := by
  have hdrop : (cs.drop i).flatten = cs[i] ++ (cs.drop (i + 1)).flatten := by
    rw [List.drop_eq_getElem_cons hi, List.flatten_cons]
  rw [List.getD_eq_getElem?_getD, List.getD_eq_getElem?_getD, ← List.getElem?_drop,
    drop_charOff, hdrop, List.getElem?_append_left hj]

theorem charOff_le_charOff {i j : ℕ} (hij : i ≤ j) : charOff cs i ≤ charOff cs j := by
  obtain ⟨k, rfl⟩ := Nat.exists_eq_add_of_le hij
  rw [charOff_add]
  omega

/-- In a character split, `charOff cs` is strictly monotone up to the end: no character is
empty. -/
theorem charOff_add_le (hne : ∀ c ∈ cs, c ≠ []) {i j : ℕ} (hij : i ≤ j) (hj : j ≤ cs.length) :
    charOff cs i + (j - i) ≤ charOff cs j := by
  induction j, hij using Nat.le_induction with
  | base => simp
  | succ j hij ih =>
    have hlt : j < cs.length := by omega
    have hpos : 0 < cs[j].length := List.length_pos_iff.mpr (hne _ (List.getElem_mem hlt))
    rw [charOff_succ hlt]
    have := ih hlt.le
    omega

theorem charOff_lt_length (hne : ∀ c ∈ cs, c ≠ []) {i : ℕ} (hi : i < cs.length) :
    charOff cs i < cs.flatten.length := by
  have := charOff_add_le hne hi.le le_rfl
  rw [charOff_of_le le_rfl] at this
  omega

theorem charOff_le_length (i : ℕ) : charOff cs i ≤ cs.flatten.length := by
  rw [← charOff_of_le (Nat.le_add_left cs.length i)]
  exact charOff_le_charOff (Nat.le_add_right i _)

theorem charOff_min (i : ℕ) : charOff cs (min i cs.length) = charOff cs i := by
  rcases le_total i cs.length with h | h
  · rw [min_eq_left h]
  · rw [min_eq_right h, charOff_of_le le_rfl, charOff_of_le h]

/-- A character starts before the end only if there is one. -/
theorem lt_length_of_charOff_lt {i : ℕ} (hi : i ≤ cs.length)
    (hlt : charOff cs i < cs.flatten.length) : i < cs.length := by
  rcases Nat.lt_or_eq_of_le hi with h | rfl
  · exact h
  · rw [charOff_of_le le_rfl] at hlt
    exact absurd hlt (Nat.lt_irrefl _)

/-- Characters of one byte each start at their index. -/
theorem charOff_of_one (h1 : ∀ c ∈ cs, c.length = 1) (i : ℕ) :
    charOff cs i = min i cs.length := by
  induction cs generalizing i with
  | nil => simp [charOff]
  | cons c cs ih =>
    cases i with
    | zero => simp
    | succ i =>
      rw [charOff, List.take_succ_cons, List.flatten_cons, List.length_append, ← charOff,
        ih (fun c' hc' => h1 c' (List.mem_cons_of_mem c hc')), h1 c List.mem_cons_self]
      simp only [List.length_cons]
      omega

/-- Characters of width `w` each start at `w` times their index. -/
theorem charOff_fixed {w : ℕ} (hw : ∀ c ∈ cs, c.length = w) (i : ℕ) :
    charOff cs i = min i cs.length * w := by
  induction cs generalizing i with
  | nil => simp [charOff]
  | cons c cs ih =>
    cases i with
    | zero => simp
    | succ i =>
      rw [charOff, List.take_succ_cons, List.flatten_cons, List.length_append, ← charOff,
        ih (fun c' hc' => hw c' (List.mem_cons_of_mem c hc')), hw c List.mem_cons_self]
      simp only [List.length_cons, Nat.add_min_add_right, Nat.add_mul, Nat.one_mul]
      omega

/-! ## What `rb_str_subpos` is for -/

/-- What `rb_str_subpos(str, beg, &len)` is for, on the characters `cs` of a string: `NULL`
exactly when `len < 0` or `beg` is outside `[-n, n]`; otherwise `len` becomes the byte length of
the characters from `b` (`beg`, counted from the end when negative) up to `b + len`, as many as
there are, and when there are any, the pointer is to the first of them. -/
def SubposSpec (cs : List (List UInt8)) (beg len : ℤ) (r : Option (ℕ × ℤ)) : Prop :=
  (r = none ↔ len < 0 ∨ (cs.length : ℤ) < beg ∨ beg < -(cs.length : ℤ)) ∧
    ∀ p l, r = some (p, l) →
      l = (((cs.drop (if beg < 0 then beg + cs.length else beg).toNat).take
          len.toNat).flatten.length : ℤ) ∧
        (0 < l → p = charOff cs (if beg < 0 then beg + cs.length else beg).toNat)

theorem SubposSpec.of_none {beg len : ℤ}
    (h : len < 0 ∨ (cs.length : ℤ) < beg ∨ beg < -(cs.length : ℤ)) :
    SubposSpec cs beg len none :=
  ⟨iff_of_true rfl h, fun _ _ h => nomatch h⟩

/-- A result in range: the bytes from character `b` to character `b + k`, where `k` characters
from `b` reach as far as `len` characters do. -/
theorem SubposSpec.of_some {beg len : ℤ} {p : ℕ} {l : ℤ} (hlen : 0 ≤ len)
    (hlo : -(cs.length : ℤ) ≤ beg) (hhi : beg ≤ cs.length) {b k : ℕ}
    (hb : (if beg < 0 then beg + cs.length else beg) = b)
    (hk : min (b + k) cs.length = min (b + len.toNat) cs.length)
    (hl : l = (charOff cs (b + k) : ℤ) - charOff cs b) (hp : 0 < l → p = charOff cs b) :
    SubposSpec cs beg len (some (p, l)) := by
  refine ⟨iff_of_false (by simp) (by omega), fun p' l' h => ?_⟩
  simp only [Option.some.injEq, Prod.mk.injEq] at h
  obtain ⟨rfl, rfl⟩ := h
  rw [hb, Int.toNat_natCast, length_flatten_take_drop, ← charOff_min (b + len.toNat), ← hk,
    charOff_min, Nat.cast_sub (charOff_le_charOff (by omega))]
  exact ⟨hl, hp⟩

/-! ## What the encoding finds in the characters -/

/-- `cs` are the characters of a string valid in `enc`: what the encoding's functions find in
them. -/
structure CharSplit (enc : Encoding) (cs : List (List UInt8)) : Prop where
  ne_nil : ∀ c ∈ cs, c ≠ []
  /-- `rb_enc_mbmaxlen` bounds every character -/
  le_max : ∀ c ∈ cs, c.length ≤ enc.maxEncLen
  /-- `precise_mbc_enc_len` at the first byte of a character finds it -/
  precise : ∀ i (hi : i < cs.length), enc.preciseMbcEncLen (cs.drop i).flatten = cs[i].length
  /-- in an ASCII-compatible encoding, a character that starts with an ASCII byte is that byte -/
  ascii : enc.asciicompat → ∀ c ∈ cs, isascii (c.headD 0) → c.length = 1
  /-- in a fixed-width encoding, every character has that width -/
  fixed : enc.maxEncLen = enc.minEncLen → ∀ c ∈ cs, c.length = enc.maxEncLen
  /-- in UTF-8, a character is a lead byte and continuation bytes -/
  utf8 : enc.index = encindexUtf8 →
    ∀ c ∈ cs, utf8Islead (c.headD 0) ∧ ∀ x ∈ c.tail, utf8Islead x = false
  /-- `left_adjust_char_head` from the last byte of a character finds its first, for the end of
  any later character -/
  prev : ∀ i j, 0 < i → i ≤ j → j ≤ cs.length →
    enc.leftAdjustCharHead cs.flatten 0 (charOff cs i - 1) (charOff cs j) = charOff cs (i - 1)

namespace CharSplit

variable {enc : Encoding} (hs : CharSplit enc cs)
include hs

/-- The first byte of character `i`. -/
theorem getD_charOff_head {i : ℕ} (hi : i < cs.length) :
    cs.flatten.getD (charOff cs i) 0 = cs[i].headD 0 := by
  have hpos : 0 < cs[i].length := List.length_pos_iff.mpr (hs.ne_nil _ (List.getElem_mem hi))
  rw [← Nat.add_zero (charOff cs i), getD_charOff hi hpos]
  cases h : cs[i] with
  | nil => simp [h] at hpos
  | cons b t => rfl

/-- `rb_enc_mbclen` at the start of a character is its length. -/
theorem mbclen_charOff {i : ℕ} (hi : i < cs.length) :
    enc.mbclen ((cs.flatten.drop (charOff cs i)).take (cs.flatten.length - charOff cs i)) =
      cs[i].length := by
  have hpos : 0 < cs[i].length := List.length_pos_iff.mpr (hs.ne_nil _ (List.getElem_mem hi))
  have hle : cs[i].length ≤ (cs.drop i).flatten.length := by
    rw [List.drop_eq_getElem_cons hi, List.flatten_cons, List.length_append]
    omega
  rw [rest_charOff, Encoding.mbclen, hs.precise i hi, if_pos ⟨by omega, by omega⟩]
  simp

/-- `rb_enc_fast_mbclen` at the start of a character is its length. -/
theorem fastMbclen_charOff {i : ℕ} (hi : i < cs.length) :
    enc.fastMbclen ((cs.flatten.drop (charOff cs i)).take (cs.flatten.length - charOff cs i)) =
      cs[i].length := by
  have hpos : 0 < cs[i].length := List.length_pos_iff.mpr (hs.ne_nil _ (List.getElem_mem hi))
  rw [rest_charOff, Encoding.fastMbclen, hs.precise i hi, if_pos (by omega)]
  simp

theorem length_pos {i : ℕ} (hi : i < cs.length) : 0 < cs[i].length :=
  List.length_pos_iff.mpr (hs.ne_nil _ (List.getElem_mem hi))

/-- A character has at least one byte. -/
theorem length_le_flatten : cs.length ≤ cs.flatten.length := by
  have := charOff_add_le hs.ne_nil (Nat.zero_le _) (le_refl cs.length)
  rwa [charOff_zero, charOff_of_le le_rfl, Nat.zero_add, Nat.sub_zero] at this

/-- A string that `single_byte_optimizable` lets be indexed by bytes has one byte per character:
its coderange is `7BIT`, so every byte is an ASCII character, or `mbmaxlen` is one. -/
theorem length_one_of_sbo {cr : Coderange}
    (hcr : cr = .valid ∨ cr = .sevenBit ∧ enc.asciicompat ∧ ∀ b ∈ cs.flatten, isascii b)
    (hsbo : singleByteOptimizable cr enc = true) : ∀ c ∈ cs, c.length = 1 := by
  intro c hc
  have hpos : 0 < c.length := List.length_pos_iff.mpr (hs.ne_nil c hc)
  simp only [singleByteOptimizable, Bool.or_eq_true, beq_iff_eq] at hsbo
  rcases hsbo with rfl | hmax
  · -- `7BIT`: the first byte of `c` is ASCII
    obtain ⟨-, hac, hasc⟩ := hcr.resolve_left (by simp)
    obtain ⟨b, t, rfl⟩ := List.exists_cons_of_ne_nil (hs.ne_nil c hc)
    exact hs.ascii hac _ hc (hasc b (List.mem_flatten.mpr ⟨_, hc, List.mem_cons_self⟩))
  · have := hs.le_max c hc
    omega

/-- **A run of ASCII bytes from the start of a character is a run of one-byte characters.** -/
theorem ascii_run (hac : enc.asciicompat) {i k : ℕ} (hi : i ≤ cs.length)
    (hk : charOff cs i + k ≤ cs.flatten.length)
    (hasc : ∀ x, charOff cs i ≤ x → x < charOff cs i + k → cs.flatten.getD x 0 &&& 0x80 = 0) :
    i + k ≤ cs.length ∧ charOff cs (i + k) = charOff cs i + k := by
  induction k generalizing i with
  | zero => exact ⟨hi, rfl⟩
  | succ k ih =>
    have hlt : i < cs.length := lt_length_of_charOff_lt hi (by omega)
    -- character `i` starts with an ASCII byte, so it is that byte
    have hone : cs[i].length = 1 := by
      refine hs.ascii hac _ (List.getElem_mem hlt) ?_
      rw [← hs.getD_charOff_head hlt, isascii_iff_and]
      exact hasc _ le_rfl (by omega)
    have hsucc : charOff cs (i + 1) = charOff cs i + 1 := by rw [charOff_succ hlt, hone]
    obtain ⟨hle, hoff⟩ := ih (i := i + 1) hlt (by omega)
      (fun x hx hxk => hasc x (by omega) (by omega))
    exact ⟨by omega, by rw [show i + (k + 1) = i + 1 + k by omega, hoff, hsucc]; omega⟩

/-! ### UTF-8 -/

/-- A character of UTF-8 holds one lead byte, its first. -/
theorem leadsIn_char (hu : enc.index = encindexUtf8) {i : ℕ} (hi : i < cs.length) :
    leadsIn cs.flatten (charOff cs i) (charOff cs (i + 1)) = 1 := by
  obtain ⟨hlead, htail⟩ := hs.utf8 hu _ (List.getElem_mem hi)
  have hpos := hs.length_pos hi
  rw [charOff_succ hi, leadsIn_succ (by omega), hs.getD_charOff_head hi, if_pos hlead,
    leadsIn_eq_zero]
  -- the continuation bytes
  intro x hx hxq
  obtain ⟨j, rfl⟩ := Nat.exists_eq_add_of_le hx
  obtain ⟨b, t, hbt⟩ := List.exists_cons_of_ne_nil (hs.ne_nil _ (List.getElem_mem hi))
  have hj : j < t.length := by rw [hbt] at hxq; simp at hxq; omega
  rw [Nat.add_assoc, getD_charOff hi (by omega), hbt, Nat.add_comm, List.getD_cons_succ,
    List.getD_eq_getElem _ _ hj]
  exact htail _ (by rw [hbt]; exact List.getElem_mem hj)

/-- The lead bytes before character `i` are the characters before it. -/
theorem leadsIn_chars (hu : enc.index = encindexUtf8) {i : ℕ} (hi : i ≤ cs.length) :
    leadsIn cs.flatten 0 (charOff cs i) = i := by
  induction i with
  | zero => rw [charOff_zero, leadsIn_self]
  | succ i ih =>
    rw [leadsIn_add (Nat.zero_le _) (charOff_le_charOff (Nat.le_succ i)), ih (by omega),
      hs.leadsIn_char hu (by omega)]

/-- **The byte loop of `str_utf8_nth` from character `i` stops at character `i + k`**, or at the
end with the characters still to go. -/
theorem utf8NthLoop_chars (hu : enc.index = encindexUtf8) (k : ℕ) {i : ℕ} (hi : i ≤ cs.length) :
    utf8NthLoop cs.flatten cs.flatten.length (charOff cs i) k =
      if i + k < cs.length then (charOff cs (i + k), 0)
      else (cs.flatten.length, ((i + k - cs.length : ℕ) : ℤ)) := by
  induction k generalizing i with
  | zero =>
    rcases Nat.lt_or_eq_of_le hi with hlt | rfl
    · -- at a lead byte with no character to go
      rw [utf8NthLoop, if_pos (charOff_lt_length hs.ne_nil hlt), hs.getD_charOff_head hlt,
        if_pos (hs.utf8 hu _ (List.getElem_mem hlt)).1, if_pos (by simp), if_pos (by omega)]
      rfl
    · rw [charOff_of_le le_rfl, utf8NthLoop, if_neg (lt_irrefl _), if_neg (by omega)]
      simp
  | succ k ih =>
    rcases Nat.lt_or_eq_of_le hi with hlt | rfl
    · -- character `i` is passed: it holds one lead byte
      have h1 := hs.leadsIn_char hu hlt
      have hend : charOff cs (i + 1) ≤ cs.flatten.length := by
        rw [← charOff_of_le le_rfl]
        exact charOff_le_charOff hlt
      rw [utf8NthLoop_skip (q := charOff cs (i + 1)) (by rw [h1]; push_cast; omega)
        (charOff_le_charOff (Nat.le_succ i)) hend, h1,
        show ((k + 1 : ℕ) : ℤ) - ((1 : ℕ) : ℤ) = k by push_cast; ring, ih hlt,
        show i + 1 + k = i + (k + 1) by omega]
    · rw [charOff_of_le le_rfl, utf8NthLoop, if_neg (lt_irrefl _), if_neg (by omega)]
      simp

/-- Where the byte loop of `str_utf8_nth` stops: at character `i + k`, or at the end. -/
theorem utf8NthLoop_fst (hu : enc.index = encindexUtf8) (k : ℕ) {i : ℕ} (hi : i ≤ cs.length) :
    (utf8NthLoop cs.flatten cs.flatten.length (charOff cs i) k).1 = charOff cs (i + k) := by
  rw [hs.utf8NthLoop_chars hu k hi]
  split_ifs with h
  · rfl
  · exact (charOff_of_le (by omega)).symm

/-! ### Counting characters -/

/-- **The ASCII-compatible loop of `enc_strlen` counts the characters left**, given a fuel of at
least their number: a run of ASCII bytes is a run of one-byte characters, and `mbclen` steps over
one character. -/
theorem asciiCountLoop_chars (hac : enc.asciicompat) (mbclen : List UInt8 → ℕ)
    (hmb : ∀ i (hi : i < cs.length),
      mbclen ((cs.flatten.drop (charOff cs i)).take (cs.flatten.length - charOff cs i)) =
        cs[i].length)
    (fuel : ℕ) {i : ℕ} (c : ℕ) (hi : i ≤ cs.length) (hfuel : cs.length - i ≤ fuel) :
    asciiCountLoop mbclen cs.flatten cs.flatten.length fuel (charOff cs i) c =
      c + (cs.length - i) := by
  induction fuel generalizing i c with
  | zero => rw [asciiCountLoop]; omega
  | succ fuel ih =>
    rw [asciiCountLoop]
    by_cases hpe : charOff cs i < cs.flatten.length
    · have hlt := lt_length_of_charOff_lt hi hpe
      rw [if_pos hpe]
      split_ifs with hasc
      · split
        · -- no byte left with its top bit set: the rest is one-byte characters
          rename_i hnone
          rw [searchNonascii_eq] at hnone
          obtain ⟨hle, hoff⟩ := hs.ascii_run hac hi (k := cs.flatten.length - charOff cs i)
            (by omega) (fun x hx hxk => searchNonasciiTail_none hnone x hx (by omega))
          have hall : i + (cs.flatten.length - charOff cs i) = cs.length := by
            by_contra hne
            have := charOff_lt_length hs.ne_nil
              (show i + (cs.flatten.length - charOff cs i) < cs.length by omega)
            omega
          omega
        · -- one-byte characters up to character `m`, which `mbclen` steps over
          rename_i q hq
          rw [searchNonascii_eq] at hq
          have hpq := le_searchNonasciiTail hq
          obtain ⟨hqe, -, hclear⟩ := searchNonasciiTail_some hq
          obtain ⟨hle, hoff⟩ := hs.ascii_run hac hi (k := q - charOff cs i) (by omega)
            (fun x hx hxk => hclear x hx (by omega))
          have hm : i + (q - charOff cs i) < cs.length := lt_length_of_charOff_lt hle (by omega)
          rw [show q = charOff cs (i + (q - charOff cs i)) by omega, hmb _ hm, ← charOff_succ hm,
            ih _ (by omega) (by omega)]
          omega
      · -- one character
        rw [hmb i hlt, ← charOff_succ hlt, ih _ (by omega) (by omega)]
        omega
    · rw [if_neg hpe]
      have hn : i = cs.length := by
        by_contra hne
        exact hpe (charOff_lt_length hs.ne_nil (by omega))
      omega

/-- **`enc_strlen` counts the characters**, in an ASCII-compatible or fixed-width encoding. -/
theorem encStrlen_chars (henc : enc.asciicompat ∨ enc.maxEncLen = enc.minEncLen)
    (addr : ℕ) (cr : Coderange) : encStrlen enc cs.flatten addr cr = cs.length := by
  by_cases hfix : enc.maxEncLen = enc.minEncLen
  · -- a fixed width `w`: the bytes are `w` times the characters
    rw [encStrlen]
    dsimp only
    rw [if_pos hfix]
    have hlen : cs.flatten.length = cs.length * enc.minEncLen := by
      rw [← charOff_of_le le_rfl, charOff_fixed (hfix ▸ hs.fixed hfix), min_self]
    rcases Nat.eq_zero_or_pos enc.minEncLen with h0 | hpos
    · -- no width: no characters
      have hnil : cs = [] := by
        cases cs with
        | nil => rfl
        | cons c cs =>
          have := hs.length_pos (i := 0) (by simp)
          have := hs.fixed hfix c List.mem_cons_self
          simp_all
      simp [hnil]
    · rw [hlen, Nat.mul_div_cancel _ hpos, Nat.mul_mod_left, if_neg (by simp)]
      rfl
  by_cases hutf : cr = .valid ∧ enc.index = encindexUtf8
  · rw [encStrlen_utf8 enc addr hfix hutf, ← charOff_of_le le_rfl,
      hs.leadsIn_chars hutf.2 le_rfl]
  -- ASCII-compatible: either length function steps over one character
  have hac : enc.asciicompat := henc.resolve_right hfix
  have hfuel : cs.length - 0 ≤ cs.flatten.length := by
    have := hs.length_le_flatten
    omega
  rw [encStrlen]
  dsimp only
  rw [if_neg hfix, if_neg hutf, if_pos hac]
  split_ifs
  · have h := hs.asciiCountLoop_chars hac _ (fun i hi => hs.fastMbclen_charOff hi)
      cs.flatten.length (i := 0) 0 (Nat.zero_le _) hfuel
    rwa [charOff_zero, Nat.zero_add, Nat.sub_zero] at h
  · have h := hs.asciiCountLoop_chars hac _ (fun i hi => hs.mbclen_charOff hi)
      cs.flatten.length (i := 0) 0 (Nat.zero_le _) hfuel
    rwa [charOff_zero, Nat.zero_add, Nat.sub_zero] at h

/-- **`str_strlen` counts the characters** of a string whose coderange is `7BIT` or `VALID`, and
leaves the coderange as it is. -/
theorem strStrlen_chars (henc : enc.asciicompat ∨ enc.maxEncLen = enc.minEncLen) {cr : Coderange}
    (hcr : cr = .valid ∨ cr = .sevenBit ∧ enc.asciicompat ∧ ∀ b ∈ cs.flatten, isascii b)
    (addr : ℕ) : strStrlen enc cs.flatten addr cr = (cs.length, cr) := by
  rw [strStrlen]
  split_ifs with hsbo hunk
  · rw [← charOff_of_le le_rfl, charOff_of_one (hs.length_one_of_sbo hcr hsbo), min_self]
  · rcases hcr with rfl | ⟨rfl, -⟩ <;> cases hunk
  · rw [hs.encStrlen_chars henc]

/-! ### `str_nth_len` -/

/-- **`str_nth_len` in an ASCII-compatible encoding, from character `i` with `k` to go**, stops
at character `i + k` with none left to go; when there are not that many characters, at the end
with some left to go. -/
theorem nthAsciiLoop_chars (hac : enc.asciicompat) (p k : ℕ) :
    ∀ i, p = charOff cs i → i ≤ cs.length →
      (i + k ≤ cs.length →
        nthAsciiLoop enc cs.flatten cs.flatten.length p k = (charOff cs (i + k), 0)) ∧
      (cs.length < i + k →
        (nthAsciiLoop enc cs.flatten cs.flatten.length p k).1 = cs.flatten.length ∧
          0 < (nthAsciiLoop enc cs.flatten cs.flatten.length p k).2) := by
  fun_induction nthAsciiLoop enc cs.flatten cs.flatten.length p k with
  | case1 p k hrun hshort =>
    -- fewer bytes left than characters to go
    intro i hp hi
    subst hp
    have := charOff_add_le hs.ne_nil hi le_rfl
    rw [charOff_of_le le_rfl] at this
    exact ⟨fun h => absurd hshort (by omega), fun _ => ⟨rfl, by simpa using hrun.2⟩⟩
  | case2 p k hrun hlong hasc hnone =>
    -- `k` ASCII bytes: `k` one-byte characters
    intro i hp hi
    subst hp
    rw [searchNonascii_eq] at hnone
    obtain ⟨hle, hoff⟩ := hs.ascii_run hac hi (k := k) (by omega)
      (fun x hx hxk => searchNonasciiTail_none hnone x hx hxk)
    exact ⟨fun _ => by rw [hoff], fun h => absurd hle (by omega)⟩
  | case3 p k hrun hlong hasc p2 hsome ih =>
    -- one-byte characters up to character `m`, then `m` itself
    intro i hp hi
    subst hp
    rw [searchNonascii_eq] at hsome
    have hpq := le_searchNonasciiTail hsome
    obtain ⟨hqe, -, hclear⟩ := searchNonasciiTail_some hsome
    obtain ⟨hle, hoff⟩ := hs.ascii_run hac hi (k := p2 - charOff cs i) (by omega)
      (fun x hx hxk => hclear x hx (by omega))
    obtain ⟨m, hm_def⟩ : ∃ m, m = i + (p2 - charOff cs i) := ⟨_, rfl⟩
    rw [← hm_def] at hle hoff
    have hm : m < cs.length := lt_length_of_charOff_lt hle (by omega)
    have hp2 : p2 = charOff cs m := by omega
    have := ih (m + 1) (by rw [hp2, hs.mbclen_charOff hm, charOff_succ hm]) hm
    rwa [show m + 1 + (k - (p2 - charOff cs i) - 1) = i + k by omega] at this
  | case4 p k hrun hlong hasc ih =>
    -- a character that is not ASCII
    intro i hp hi
    subst hp
    have hlt := lt_length_of_charOff_lt hi hrun.1
    have := ih (i + 1) (by rw [hs.mbclen_charOff hlt, charOff_succ hlt]) hlt
    rwa [show i + 1 + (k - 1) = i + k by omega] at this
  | case5 p k hstop =>
    intro i hp hi
    subst hp
    rcases Nat.eq_zero_or_pos k with rfl | hk
    · exact ⟨fun _ => by simp, fun h => absurd h (by omega)⟩
    · -- at the end with characters to go
      have hn : i = cs.length := by
        by_contra hne
        exact hstop ⟨charOff_lt_length hs.ne_nil (by omega), hk⟩
      subst hn
      exact ⟨fun h => absurd h (by omega), fun _ => ⟨by simp [hk.ne'], by simpa using hk⟩⟩

/-- Where `str_nth_len` stops in an ASCII-compatible encoding: at character `i + k`, or at the
end. -/
theorem nthAsciiLoop_fst (hac : enc.asciicompat) (k : ℕ) {i : ℕ} (hi : i ≤ cs.length) :
    (nthAsciiLoop enc cs.flatten cs.flatten.length (charOff cs i) k).1 = charOff cs (i + k) := by
  obtain ⟨hle, hgt⟩ := hs.nthAsciiLoop_chars hac _ k i rfl hi
  by_cases h : i + k ≤ cs.length
  · rw [hle h]
  · rw [(hgt (by omega)).1, charOff_of_le (by omega)]

/-! ### The backward scan -/

/-- `rb_enc_prev_char` from the start of character `i`, with the end at the start of a later
character `j`, finds the start of character `i - 1`, or `NULL` at the first. -/
theorem encPrevChar_chars {i j : ℕ} (hij : i ≤ j) (hj : j ≤ cs.length) :
    encPrevChar enc cs.flatten 0 (charOff cs i) (charOff cs j) =
      if i = 0 then none else some (charOff cs (i - 1)) := by
  rw [encPrevChar]
  rcases Nat.eq_zero_or_pos i with rfl | hi
  · simp
  · have := charOff_add_le hs.ne_nil (Nat.zero_le i) (by omega)
    rw [charOff_zero] at this
    rw [if_neg (by omega), hs.prev i j hi hij hj, if_neg (by omega)]

/-- `t` steps back by `rb_enc_prev_char`, each with the current end, from character `j`. -/
theorem prevEnds_chars (t : ℕ) {j : ℕ} (hj : j ≤ cs.length) :
    prevEnds enc cs.flatten t (charOff cs j) =
      if t ≤ j then some (charOff cs (j - t)) else none := by
  induction t generalizing j with
  | zero => simp [prevEnds]
  | succ t ih =>
    rw [prevEnds, hs.encPrevChar_chars le_rfl hj]
    rcases Nat.eq_zero_or_pos j with rfl | hpos
    · simp
    · rw [if_neg (by omega), Option.bind_some, ih (by omega)]
      by_cases ht : t + 1 ≤ j
      · rw [if_pos (by omega), if_pos ht, show j - 1 - t = j - (t + 1) by omega]
      · rw [if_neg (by omega), if_neg ht]

/-- `t` steps back by `rb_enc_prev_char` from character `i`, with the end at character `j`. -/
theorem prevChars_chars (t : ℕ) {i j : ℕ} (hij : i ≤ j) (hj : j ≤ cs.length) :
    prevChars enc cs.flatten (charOff cs j) t (charOff cs i) =
      if t ≤ i then some (charOff cs (i - t)) else none := by
  induction t generalizing i with
  | zero => simp [prevChars]
  | succ t ih =>
    rw [prevChars, hs.encPrevChar_chars hij hj]
    rcases Nat.eq_zero_or_pos i with rfl | hpos
    · simp
    · rw [if_neg (by omega), Option.bind_some, ih (by omega)]
      by_cases ht : t + 1 ≤ i
      · rw [if_pos (by omega), if_pos ht, show i - 1 - t = i - (t + 1) by omega]
      · rw [if_neg (by omega), if_neg ht]

/-- **The backward scan of `rb_str_subpos`** for `beg = -k` and `len = l ≤ k`: the start of
character `n - k` and the bytes of the `l` characters from it, or `NULL` when `k > n`. -/
theorem subposBack_chars {k l : ℕ} (hl : l ≤ k) :
    subposBack enc cs.flatten k l =
      if k ≤ cs.length then
        some (charOff cs (cs.length - k),
          (charOff cs (cs.length - k + l) : ℤ) - charOff cs (cs.length - k))
      else none := by
  rw [subposBack, ← charOff_of_le le_rfl, hs.prevEnds_chars _ le_rfl]
  by_cases hkl : k - l ≤ cs.length
  · rw [if_pos hkl]
    dsimp only
    rw [hs.prevChars_chars _ le_rfl (Nat.sub_le _ _)]
    by_cases hk : k ≤ cs.length
    · rw [if_pos (by omega), if_pos hk, show cs.length - (k - l) - l = cs.length - k by omega,
        show cs.length - (k - l) = cs.length - k + l by omega]
    · rw [if_neg (by omega), if_neg hk]
  · rw [if_neg hkl, if_neg (by omega)]

/-! ### After the range check -/

/-- The fixed-width branch of `rb_str_subpos`: character `b` is `b * w` bytes in, and `len`
characters are `len * w` bytes, as many as there are. -/
theorem fixedTail_chars (hfix : enc.maxEncLen = enc.minEncLen) {b : ℕ} (hb : b ≤ cs.length)
    (k : ℕ) :
    (if (cs.flatten.length : ℤ) - ↑(b * enc.maxEncLen) < (k : ℤ) * enc.maxEncLen then
        (cs.flatten.length : ℤ) - ↑(b * enc.maxEncLen)
      else (k : ℤ) * enc.maxEncLen) = (charOff cs (b + k) : ℤ) - charOff cs b := by
  have hw := charOff_fixed (hs.fixed hfix)
  have hlen : cs.flatten.length = cs.length * enc.maxEncLen := by
    rw [← charOff_of_le le_rfl, hw, min_self]
  -- everything in bytes, as natural numbers
  have hsub : ((cs.length * enc.maxEncLen : ℕ) : ℤ) - ↑(b * enc.maxEncLen) =
      ↑((cs.length - b) * enc.maxEncLen) := by
    rw [Nat.sub_mul, Nat.cast_sub (Nat.mul_le_mul_right _ hb)]
  have hb' : b * enc.maxEncLen ≤ min (b + k) cs.length * enc.maxEncLen :=
    Nat.mul_le_mul_right _ (by omega)
  rw [hlen, hsub, ← Nat.cast_mul k, hw, hw, min_eq_left hb, ← Nat.cast_sub hb', ← Nat.sub_mul]
  simp only [Nat.cast_lt]
  split_ifs with hlt
  · -- fewer characters left than `len`
    have : cs.length - b < k := Nat.lt_of_mul_lt_mul_right hlt
    rw [min_eq_right (by omega)]
  · rcases Nat.eq_zero_or_pos enc.maxEncLen with h0 | hpos
    · simp [h0]
    · have : k ≤ cs.length - b := by
        by_contra h
        exact hlt (Nat.mul_lt_mul_of_pos_right (by omega) hpos)
      rw [min_eq_left (by omega), Nat.add_sub_cancel_left]

/-- **The part of `rb_str_subpos` after the range check**, from character `b` with `len` to go:
`NULL` exactly when `b` is past the last character; otherwise the bytes of characters `b` to
`b + len`, as many as there are, and when there are any, the start of character `b`. -/
theorem subposTail_chars (henc : enc.asciicompat ∨ enc.maxEncLen = enc.minEncLen)
    {cr : Coderange}
    (hcr : cr = .valid ∨ cr = .sevenBit ∧ enc.asciicompat ∧ ∀ b ∈ cs.flatten, isascii b)
    (hsbo : singleByteOptimizable cr enc = false) (addr : ℕ) {b : ℕ}
    (hb : b ≤ cs.flatten.length) {len : ℤ} (hlen : 0 ≤ len) (hfit : len * enc.maxEncLen < 2 ^ 63) :
    (subposTail enc cr addr cs.flatten b len = none ↔ cs.length < b) ∧
      ∀ p l, subposTail enc cr addr cs.flatten b len = some (p, l) →
        l = (charOff cs (b + len.toNat) : ℤ) - charOff cs b ∧ (0 < l → p = charOff cs b) := by
  obtain ⟨k, rfl⟩ : ∃ k : ℕ, len = k := ⟨len.toNat, (Int.toNat_of_nonneg hlen).symm⟩
  rw [Int.toNat_natCast, subposTail]
  dsimp only
  by_cases h0 : (k : ℤ) = 0
  · -- `len == 0`: only the count
    rw [if_pos h0, hs.strStrlen_chars henc hcr]
    have hk : k = 0 := by exact_mod_cast h0
    subst hk
    split_ifs with hn
    · exact ⟨iff_of_true rfl hn, fun _ _ h => nomatch h⟩
    · refine ⟨iff_of_false (by simp) hn, fun p l h => ?_⟩
      simp only [Option.some.injEq, Prod.mk.injEq] at h
      obtain ⟨rfl, rfl⟩ := h
      simp
  rw [if_neg h0]
  by_cases hutf : cr = .valid ∧ enc.index = encindexUtf8
  · -- valid UTF-8: `str_utf8_nth`, then `str_utf8_offset`
    rw [if_pos hutf]
    have hstart := hs.utf8NthLoop_chars hutf.2 b (Nat.zero_le _)
    rw [charOff_zero, Nat.zero_add] at hstart
    rw [strUtf8Nth_eq addr _ (Nat.zero_le _)]
    by_cases hbn : b ≤ cs.length
    · have hr : utf8NthLoop cs.flatten cs.flatten.length 0 b = (charOff cs b, 0) := by
        rw [hstart]
        split_ifs with hlt
        · rfl
        · rw [charOff_of_le (by omega), show b - cs.length = 0 by omega]
          rfl
      rw [hr]
      dsimp only
      rw [if_neg (lt_irrefl 0), strUtf8Offset, strUtf8Nth_eq addr _ (charOff_le_length _),
        hs.utf8NthLoop_fst hutf.2 k hbn]
      refine ⟨iff_of_false (by simp) (by omega), fun p l h => ?_⟩
      simp only [Option.some.injEq, Prod.mk.injEq] at h
      obtain ⟨rfl, rfl⟩ := h
      exact ⟨by rw [Nat.cast_sub (charOff_le_charOff (by omega))], fun _ => rfl⟩
    · -- past the last character: characters are still to go
      rw [hstart, if_neg (show ¬b < cs.length by omega)]
      dsimp only
      rw [if_pos (by omega)]
      exact ⟨iff_of_true rfl (by omega), fun _ _ h => nomatch h⟩
  rw [if_neg hutf]
  by_cases hfix : enc.maxEncLen = enc.minEncLen
  · -- a fixed width: multiply, with `len * char_sz` in range
    have hprod : (0 : ℤ) ≤ (k : ℤ) * enc.maxEncLen := by positivity
    rw [if_pos hfix, wrapLong_of_range (by omega) hfit]
    have hw := charOff_fixed (hs.fixed hfix)
    have hlen' : cs.flatten.length = cs.length * enc.maxEncLen := by
      rw [← charOff_of_le le_rfl, hw, min_self]
    by_cases hbn : b ≤ cs.length
    · rw [if_neg (by rw [not_lt, hlen']; exact Nat.mul_le_mul_right _ hbn)]
      refine ⟨iff_of_false (by split_ifs <;> simp) (by omega), fun p l h => ?_⟩
      rw [← hs.fixedTail_chars hfix hbn k]
      have hp : b * enc.maxEncLen = charOff cs b := by rw [hw, min_eq_left hbn]
      split_ifs at h ⊢ <;>
      · simp only [Option.some.injEq, Prod.mk.injEq] at h
        obtain ⟨rfl, rfl⟩ := h
        exact ⟨rfl, fun _ => hp⟩
    · -- past the last character: past the end
      have hpos : 0 < enc.maxEncLen := by
        rcases Nat.eq_zero_or_pos enc.maxEncLen with h0 | h
        · rw [hlen', h0] at hb
          omega
        · exact h
      rw [if_pos (by rw [hlen']; exact Nat.mul_lt_mul_of_pos_right (by omega) hpos)]
      exact ⟨iff_of_true rfl (by omega), fun _ _ h => nomatch h⟩
  -- ASCII-compatible: `str_nth_len`, then `str_offset`
  rw [if_neg hfix]
  have hac : enc.asciicompat := henc.resolve_right hfix
  have hmax : enc.maxEncLen ≠ 1 := by
    intro h1
    simp [singleByteOptimizable, h1] at hsbo
  obtain ⟨hle, hgt⟩ := hs.nthAsciiLoop_chars hac 0 b 0 charOff_zero.symm (Nat.zero_le _)
  rw [Nat.zero_add] at hle hgt
  rw [strNthLen, if_neg hmax, if_neg hfix, if_pos hac]
  by_cases hbn : b ≤ cs.length
  · rw [hle hbn]
    dsimp only
    by_cases hend : charOff cs b = cs.flatten.length
    · -- at the end: character `b` is the last, and nothing follows
      rw [if_pos hend, if_neg (lt_irrefl 0)]
      have hbn' : b = cs.length := by
        by_contra hne
        exact absurd hend (charOff_lt_length hs.ne_nil (by omega)).ne
      refine ⟨iff_of_false (by simp) (by omega), fun p l h => ?_⟩
      simp only [Option.some.injEq, Prod.mk.injEq] at h
      obtain ⟨rfl, rfl⟩ := h
      rw [charOff_of_le (by omega), charOff_of_le (by omega)]
      simp
    · rw [if_neg hend]
      refine ⟨iff_of_false (by simp) (by omega), fun p l h => ?_⟩
      simp only [Option.some.injEq, Prod.mk.injEq] at h
      obtain ⟨rfl, rfl⟩ := h
      rw [strOffset, strNth, if_neg Bool.false_ne_true, strNthLen, if_neg hmax, if_neg hfix,
        if_pos hac, Int.toNat_natCast, hs.nthAsciiLoop_fst hac k hbn, min_eq_left (charOff_le_length _)]
      exact ⟨by rw [Nat.cast_sub (charOff_le_charOff (by omega))], fun _ => rfl⟩
  · -- past the last character: `str_nth_len` ends with characters to go
    obtain ⟨hend, hpos⟩ := hgt (by omega)
    rw [if_pos hend, if_pos hpos]
    exact ⟨iff_of_true rfl (by omega), fun _ _ h => nomatch h⟩

end CharSplit

/-! ## `rb_str_subpos` -/

/-- **`rb_str_subpos` finds the characters asked for**, on every path, in an ASCII-compatible or
fixed-width encoding, for a string whose coderange is `VALID`, or `7BIT` with ASCII bytes only,
wherever the string lies in memory, when no `long` it computes wraps: `-beg`,
`-beg * rb_enc_mbmaxlen(enc)` and `len * char_sz` stay below `2 ^ 63`. -/
theorem rbStrSubpos_chars (enc : Encoding) (cr : Coderange) (addr : ℕ) (cs : List (List UInt8))
    (hs : CharSplit enc cs) (henc : enc.asciicompat ∨ enc.maxEncLen = enc.minEncLen)
    (hcr : cr = .valid ∨ cr = .sevenBit ∧ enc.asciicompat ∧ ∀ b ∈ cs.flatten, isascii b)
    (beg len : ℤ) (hbeg : -2 ^ 63 < beg) (hbegfit : -beg * enc.maxEncLen < 2 ^ 63)
    (hlenfit : len * enc.maxEncLen < 2 ^ 63) :
    SubposSpec cs beg len (rbStrSubpos enc cr addr cs.flatten beg len) := by
  have hn := hs.length_le_flatten
  rw [rbStrSubpos]
  dsimp only
  by_cases hneg : len < 0
  · rw [if_pos hneg]
    exact SubposSpec.of_none (Or.inl hneg)
  rw [if_neg hneg]
  -- `if (!blen) len = 0`: with no bytes there are no characters, and `len` does not matter
  generalize hL : (if (cs.flatten.length : ℤ) = 0 then 0 else len) = L
  have hL0 : 0 ≤ L := by
    rw [← hL]
    split_ifs <;> omega
  have hLlen : L = len ∨ cs.length = 0 := by
    rw [← hL]
    split_ifs with h
    · right
      omega
    · exact .inl rfl
  have hLfit : L * enc.maxEncLen < 2 ^ 63 := by
    rw [← hL]
    split_ifs
    · simp
    · exact hlenfit
  by_cases hsbo : singleByteOptimizable cr enc = true
  · -- one byte per character: bytes are characters
    rw [if_pos hsbo]
    have h1 := charOff_of_one (hs.length_one_of_sbo hcr hsbo)
    have hbl : cs.flatten.length = cs.length := by rw [← charOff_of_le le_rfl, h1, min_self]
    rw [hbl]
    by_cases hbig : (cs.length : ℤ) < beg
    · rw [if_pos hbig]
      exact SubposSpec.of_none (Or.inr (Or.inl hbig))
    rw [if_neg hbig]
    generalize hB : (if beg < 0 then beg + cs.length else beg) = B
    by_cases hB0 : B < 0
    · rw [if_pos hB0]
      refine SubposSpec.of_none (Or.inr (Or.inr ?_))
      rw [← hB] at hB0
      split_ifs at hB0 <;> omega
    rw [if_neg hB0]
    generalize hM : (if (cs.length : ℤ) - B < L then (cs.length : ℤ) - B else L) = M
    have hM' : M = min ((cs.length : ℤ) - B) L := by
      rw [← hM]
      split_ifs <;> omega
    have hBb : (if beg < 0 then beg + cs.length else beg) = (B.toNat : ℤ) := by
      rw [hB]
      omega
    have hBn : B ≤ cs.length := by
      rw [← hB]
      split_ifs <;> omega
    rw [if_neg (by omega)]
    refine SubposSpec.of_some (by omega) ?_ (by omega) hBb (k := M.toNat) (by omega) ?_ ?_
    · rw [← hB] at hB0
      split_ifs at hB0 <;> omega
    · rw [h1, h1]
      omega
    · intro _
      rw [h1, min_eq_left (by omega)]
  rw [if_neg hsbo]
  simp only [Bool.not_eq_true] at hsbo
  by_cases hb0 : beg < 0
  · -- `-beg` and `-beg * rb_enc_mbmaxlen(enc)` do not wrap
    have hprod : (0 : ℤ) ≤ -beg * enc.maxEncLen := mul_nonneg (by omega) (Nat.cast_nonneg _)
    rw [if_pos hb0, wrapLong_of_range (x := -beg) (by omega) (by omega),
      wrapLong_of_range (by omega) hbegfit]
    -- `len` is at most the characters from `beg` to the end
    generalize hM : (if -beg < L then -beg else L) = M
    have hM' : M = min (-beg) L := by
      rw [← hM]
      split_ifs <;> omega
    split_ifs with hback hlow hM0
    · -- small `-beg`: the backward scan
      rw [hs.subposBack_chars (by omega)]
      split_ifs with hk
      · refine SubposSpec.of_some (by omega) (by omega) (by omega)
          (b := cs.length - (-beg).toNat) (by rw [if_pos hb0]; omega) (k := M.toNat) (by omega)
          (by rfl) (fun _ => rfl)
      · exact SubposSpec.of_none (Or.inr (Or.inr (by omega)))
    · -- the count: before the first character
      rw [hs.strStrlen_chars henc hcr] at hlow
      exact SubposSpec.of_none (Or.inr (Or.inr (by simp at hlow; omega)))
    · -- the count, and `len == 0`
      rw [hs.strStrlen_chars henc hcr] at hlow ⊢
      refine SubposSpec.of_some (by omega) (by simp at hlow; omega) (by omega)
        (b := (beg + cs.length).toNat) (by rw [if_pos hb0]; simp at hlow; omega) (k := 0)
        (by omega) (by simp [hM0]) (fun h => absurd h (by omega))
    · -- the count, then the rest from character `beg + n`
      rw [hs.strStrlen_chars henc hcr] at hlow ⊢
      simp only at hlow ⊢
      have hMfit : M * enc.maxEncLen < 2 ^ 63 :=
        lt_of_le_of_lt (Int.mul_le_mul_of_nonneg_right (by omega) (Nat.cast_nonneg _)) hLfit
      obtain ⟨hnone, hsome⟩ := hs.subposTail_chars henc hcr hsbo addr
        (b := (beg + cs.length).toNat) (by omega) (show (0 : ℤ) ≤ M by omega) hMfit
      refine ⟨?_, fun p l h => ?_⟩
      · rw [hnone]
        omega
      · obtain ⟨hl, hp⟩ := hsome p l h
        exact (SubposSpec.of_some (by omega) (by omega) (by omega) (b := (beg + cs.length).toNat)
          (by rw [if_pos hb0]; omega) (k := M.toNat) (by omega) hl hp).2 p l rfl
  rw [if_neg hb0]
  by_cases hbig : 0 < beg ∧ (cs.flatten.length : ℤ) < beg
  · rw [if_pos hbig]
    exact SubposSpec.of_none (Or.inr (Or.inl (by omega)))
  rw [if_neg hbig]
  obtain ⟨hnone, hsome⟩ := hs.subposTail_chars henc hcr hsbo addr (b := beg.toNat) (by omega) hL0
    hLfit
  refine ⟨?_, fun p l h => ?_⟩
  · rw [hnone]
    omega
  · obtain ⟨hl, hp⟩ := hsome p l h
    have hbn : beg.toNat ≤ cs.length := by
      by_contra hc
      rw [hnone.mpr (by omega)] at h
      cases h
    exact (SubposSpec.of_some (by omega) (by omega) (by omega) (b := beg.toNat)
      (by rw [if_neg hb0]; omega) (k := L.toNat) (by omega) hl hp).2 p l rfl

/-- `"aé"` in UTF-8, valid, at address `0`: `beg = 1` and `len = 1` give the second character,
two bytes from the second byte. -/
theorem rbStrSubpos_chars_ae :
    CharSplit utf8 [[0x61], [0xC3, 0xA9]] ∧
      SubposSpec [[0x61], [0xC3, 0xA9]] 1 1
        (rbStrSubpos utf8 .valid 0 [[0x61], [0xC3, 0xA9]].flatten 1 1) := by
  have hs : CharSplit utf8 [[0x61], [0xC3, 0xA9]] := by
    refine ⟨by simp, by simp [utf8], fun i hi => ?_, fun _ c hc hasc => ?_,
      fun h => absurd h (by simp [utf8]), fun _ c hc => ?_, fun i j hi hij hj => ?_⟩
    · simp only [List.length_cons, List.length_nil] at hi
      interval_cases i <;> rfl
    · -- `a` is one byte, and `é` does not start with an ASCII byte
      simp only [List.mem_cons, List.not_mem_nil, or_false] at hc
      rcases hc with rfl | rfl
      · rfl
      · exact absurd hasc (by decide)
    · simp only [List.mem_cons, List.not_mem_nil, or_false] at hc
      rcases hc with rfl | rfl
      · exact ⟨rfl, fun x hx => by simp at hx⟩
      · refine ⟨rfl, fun x hx => ?_⟩
        simp only [List.tail_cons, List.mem_cons, List.not_mem_nil, or_false] at hx
        rw [hx]
        rfl
    · simp only [List.length_cons, List.length_nil] at hj
      interval_cases j <;> interval_cases i <;> rfl
  exact ⟨hs, rbStrSubpos_chars utf8 .valid 0 _ hs (Or.inl rfl) (Or.inl rfl) 1 1 (by decide)
    (by decide) (by decide)⟩

/-! ## Where a `long` wraps -/

/-- **`rb_str_subpos` where a `long` wraps.** `"ab"` in UTF-32LE and `"éééé"` in UTF-8 are valid
strings of the kind the code serves. For `"ab"[0, 2 ** 62]`, `len * char_sz` is `2 ** 64`, which
wraps to `0`, so no bytes are returned where both characters are asked for. For
`"éééé"[-2 ** 63, 1]`, `-beg` is `LONG_MIN` again, so `len` becomes it, and
`-beg * rb_enc_mbmaxlen(enc)` wraps to `0`, below `8 / 8`. The backward scan then takes no step
and returns the end, an empty slice, though `beg` lies before the first character. -/
theorem rbStrSubpos_long_wraps (addr : ℕ) :
    CharSplit utf32le [[0x61, 0, 0, 0], [0x62, 0, 0, 0]] ∧
      rbStrSubpos utf32le .valid addr [[0x61, 0, 0, 0], [0x62, 0, 0, 0]].flatten 0 (2 ^ 62) =
        some (0, 0) ∧
      ¬ SubposSpec [[0x61, 0, 0, 0], [0x62, 0, 0, 0]] 0 (2 ^ 62)
        (rbStrSubpos utf32le .valid addr [[0x61, 0, 0, 0], [0x62, 0, 0, 0]].flatten 0 (2 ^ 62)) ∧
    CharSplit utf8 [[0xC3, 0xA9], [0xC3, 0xA9], [0xC3, 0xA9], [0xC3, 0xA9]] ∧
      rbStrSubpos utf8 .valid addr [[0xC3, 0xA9], [0xC3, 0xA9], [0xC3, 0xA9], [0xC3, 0xA9]].flatten
        (-2 ^ 63) 1 = some (8, 0) ∧
      ¬ SubposSpec [[0xC3, 0xA9], [0xC3, 0xA9], [0xC3, 0xA9], [0xC3, 0xA9]] (-2 ^ 63) 1
        (rbStrSubpos utf8 .valid addr [[0xC3, 0xA9], [0xC3, 0xA9], [0xC3, 0xA9], [0xC3, 0xA9]].flatten
          (-2 ^ 63) 1) := by
  -- the fixed-width branch, which the address does not reach
  have hab : rbStrSubpos utf32le .valid addr [[0x61, 0, 0, 0], [0x62, 0, 0, 0]].flatten 0 (2 ^ 62) =
      some (0, 0) := by
    simp [rbStrSubpos, subposTail, singleByteOptimizable, utf32le, wrapLong,
      TwosComplement.wrapSigned, encindexUtf32le, encindexUtf8]
  -- the backward scan, with no step to take
  have he : rbStrSubpos utf8 .valid addr [[0xC3, 0xA9], [0xC3, 0xA9], [0xC3, 0xA9], [0xC3, 0xA9]].flatten
      (-2 ^ 63) 1 = some (8, 0) := by
    simp [rbStrSubpos, singleByteOptimizable, utf8, wrapLong, TwosComplement.wrapSigned, subposBack,
      prevEnds, prevChars]
  refine ⟨?_, hab, fun h => ?_, ?_, he, fun h => ?_⟩
  · -- two characters of four bytes each
    refine ⟨by simp, by simp [utf32le], fun i hi => ?_, fun h => absurd h (by decide),
      fun _ c hc => ?_, fun h => absurd h (by decide), fun i j hi hij hj => ?_⟩
    · simp only [List.length_cons, List.length_nil] at hi
      interval_cases i <;> rfl
    · simp only [List.mem_cons, List.not_mem_nil, or_false] at hc
      rcases hc with rfl | rfl <;> rfl
    · simp only [List.length_cons, List.length_nil] at hj
      interval_cases j <;> interval_cases i <;> rfl
  · -- the spec asks for the eight bytes of both characters
    have hl := (h.2 0 0 hab).1
    exact absurd hl (by decide)
  · -- four characters of two bytes each, none of them ASCII
    refine ⟨by simp, by simp [utf8], fun i hi => ?_, fun _ c hc hasc => ?_,
      fun h => absurd h (by decide), fun _ c hc => ?_, fun i j hi hij hj => ?_⟩
    · simp only [List.length_cons, List.length_nil] at hi
      interval_cases i <;> rfl
    · simp only [List.mem_cons, List.not_mem_nil, or_false] at hc
      rcases hc with rfl | rfl | rfl | rfl <;> exact absurd hasc (by decide)
    · simp only [List.mem_cons, List.not_mem_nil, or_false] at hc
      rcases hc with rfl | rfl | rfl | rfl <;>
      · refine ⟨rfl, fun x hx => ?_⟩
        simp only [List.tail_cons, List.mem_cons, List.not_mem_nil, or_false] at hx
        rw [hx]
        rfl
    · simp only [List.length_cons, List.length_nil] at hj
      interval_cases j <;> interval_cases i <;> rfl
  · -- the spec asks for `NULL`: `beg` is before the first character
    have hnone := h.1.mpr (Or.inr (Or.inr (by decide)))
    rw [he] at hnone
    cases hnone

end CRuby.Str
