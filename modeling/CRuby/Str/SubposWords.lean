import CRuby.Str.Subpos

/-!
# `rb_str_subpos`: the word loops

`search_nonascii`, `str_utf8_nth` and the UTF-8 branch of `enc_strlen` read a word of eight
bytes at a time where they can. Each computes what a loop over the same bytes, one at a time,
computes:

* `searchNonascii_eq`: `search_nonascii` finds what the byte scan of its tail finds, the first
  byte with its top bit set. In a word, `ntz_intptr(*s & NONASCII_MASK) >> 3` is the lane of the
  first such byte (`ntzIntptr_nonascii`);
* `countUtf8LeadBytesWithWord_leVal`: the SWAR count of a word is the number of its lead bytes
  (`leadsIn`);
* `strUtf8Nth_eq`: `str_utf8_nth` stops where its byte loop alone stops, and with the same
  count. The word loop may stop inside a character, but never counts past character `nth`: it
  runs only while a word's worth of characters is left (`utf8NthLoop_skip`);
* `encStrlen_utf8`: the UTF-8 count of `enc_strlen` is the number of lead bytes.

None of this looks at characters: it holds for any bytes, and at any address.
-/

namespace CRuby.Str

open CRuby.Enc ByteWord

variable {s : List UInt8}

/-! ## Lead bytes -/

/-- The lead bytes of `s` from `p` to `q`. -/
def leadsIn (s : List UInt8) (p q : ℕ) : ℕ :=
  (List.range' p (q - p)).countP fun i => utf8Islead (s.getD i 0)

theorem leadsIn_self (p : ℕ) : leadsIn s p p = 0 := by
  simp [leadsIn]

theorem leadsIn_succ {p q : ℕ} (h : p < q) :
    leadsIn s p q = (if utf8Islead (s.getD p 0) then 1 else 0) + leadsIn s (p + 1) q := by
  obtain ⟨k, hk⟩ : ∃ k, q - p = k + 1 := ⟨q - p - 1, by omega⟩
  rw [leadsIn, hk, List.range'_succ, List.countP_cons, leadsIn, show q - (p + 1) = k by omega]
  split_ifs <;> simp [Nat.add_comm]

theorem leadsIn_add {p q r : ℕ} (hpq : p ≤ q) (hqr : q ≤ r) :
    leadsIn s p r = leadsIn s p q + leadsIn s q r := by
  rw [leadsIn, leadsIn, leadsIn, ← List.countP_append, show r - p = (q - p) + (r - q) by omega,
    ← List.range'_append, Nat.one_mul, Nat.add_sub_cancel' hpq]

theorem leadsIn_le (p q : ℕ) : leadsIn s p q ≤ q - p :=
  (List.countP_le_length).trans (by simp)

theorem leadsIn_eq_zero {p q : ℕ} (h : ∀ x, p ≤ x → x < q → utf8Islead (s.getD x 0) = false) :
    leadsIn s p q = 0 := by
  rw [leadsIn, List.countP_eq_zero]
  intro x hx
  rw [List.mem_range'_1] at hx
  rw [h x hx.1 (by omega)]
  decide

/-- `utf8LeadCount` adds the lead bytes from `p` to `e`. -/
theorem utf8LeadCount_eq (e p len : ℕ) : utf8LeadCount s e p len = len + leadsIn s p e := by
  fun_induction utf8LeadCount s e p len with
  | case1 p len hp ih =>
    rw [dite_eq_ite] at ih
    rw [ih, leadsIn_succ hp]
    split_ifs <;> omega
  | case2 p len hp => rw [leadsIn, show e - p = 0 by omega]; simp

/-- `utf8LeadSkip` takes off the lead bytes from `p` to `q`. -/
theorem utf8LeadSkip_eq (q p : ℕ) (nth : ℤ) : utf8LeadSkip s q p nth = nth - leadsIn s p q := by
  fun_induction utf8LeadSkip s q p nth with
  | case1 p nth hp ih =>
    rw [dite_eq_ite] at ih
    rw [ih, leadsIn_succ hp]
    split_ifs <;> push_cast <;> ring
  | case2 p nth hp => rw [leadsIn, show q - p = 0 by omega]; simp

/-- **The byte loop of `str_utf8_nth` passes over at most `nth` lead bytes** without stopping:
it stops only at a lead byte when no character is left to go. -/
theorem utf8NthLoop_skip {e p q : ℕ} {nth : ℤ} (h : (leadsIn s p q : ℤ) ≤ nth) (hpq : p ≤ q)
    (hqe : q ≤ e) : utf8NthLoop s e p nth = utf8NthLoop s e q (nth - leadsIn s p q) := by
  induction hk : q - p generalizing p nth with
  | zero => rw [show p = q by omega, leadsIn_self]; simp
  | succ k ih =>
    have hpq' : p < q := by omega
    have hstep := leadsIn_succ (s := s) hpq'
    rw [utf8NthLoop, if_pos (by omega)]
    by_cases hl : utf8Islead (s.getD p 0)
    · -- a lead byte inside the range: a character is left to go, so the loop passes it
      rw [if_pos hl, if_neg (by rw [hstep, if_pos hl] at h; push_cast at h; omega)]
      rw [ih (by rw [hstep, if_pos hl] at h; push_cast at h; omega) (by omega) (by omega), hstep,
        if_pos hl]
      push_cast
      ring_nf
    · rw [if_neg hl, ih (by rw [hstep, if_neg hl] at h; simpa using h) (by omega) (by omega),
        hstep, if_neg hl, Nat.zero_add]

/-! ## `search_nonascii` -/

set_option maxRecDepth 4000 in
/-- The top bit of a byte. -/
theorem and_0x80_eq_zero : ∀ c : UInt8, (c &&& 0x80 = 0) = (c.toNat.testBit 7 = false) := by
  apply uint8_forall
  decide

set_option maxRecDepth 4000 in
/-- `ISASCII(c)`: the top bit of `c` is clear. -/
theorem isascii_iff_and (c : UInt8) : isascii c = true ↔ c &&& 0x80 = 0 := by
  revert c
  apply uint8_forall
  decide

/-- The byte scan passes over bytes whose top bit is clear. -/
theorem searchNonasciiTail_skip {e p m : ℕ} (h : ∀ k < m, s.getD (p + k) 0 &&& 0x80 = 0)
    (hm : p + m ≤ e) : searchNonasciiTail s e p = searchNonasciiTail s e (p + m) := by
  induction m generalizing p with
  | zero => rfl
  | succ m ih =>
    rw [searchNonasciiTail, if_pos (by omega), if_neg (by simpa using h 0 (by omega)),
      ih (fun k hk => by rw [Nat.add_right_comm]; exact h (k + 1) (by omega)) (by omega),
      Nat.add_right_comm, Nat.add_assoc]

/-- The byte scan stops at the first byte whose top bit is set. -/
theorem searchNonasciiTail_first {e p j : ℕ} (h : ∀ k < j, s.getD (p + k) 0 &&& 0x80 = 0)
    (hj : s.getD (p + j) 0 &&& 0x80 ≠ 0) (hje : p + j < e) :
    searchNonasciiTail s e p = some (p + j) := by
  rw [searchNonasciiTail_skip h (by omega), searchNonasciiTail, if_pos hje, if_pos hj]

/-- The bytes of a mask that repeats one byte. -/
theorem byteAt_replicate {n j : ℕ} (c : UInt8) (hj : j < n) : byteAt (List.replicate n c) j = c.toNat := by
  rw [byteAt, List.getD_eq_getElem?_getD, List.getElem?_replicate, if_pos hj]
  rfl

/-- What the byte scan finds: a byte with its top bit set, after bytes without. -/
theorem searchNonasciiTail_some {e p q : ℕ} (h : searchNonasciiTail s e p = some q) :
    q < e ∧ s.getD q 0 &&& 0x80 ≠ 0 ∧ ∀ x, p ≤ x → x < q → s.getD x 0 &&& 0x80 = 0 := by
  fun_induction searchNonasciiTail s e p with
  | case1 p hp hq =>
    cases h
    exact ⟨hp, hq, fun x hx hxq => absurd hxq (by omega)⟩
  | case2 p hp hq ih =>
    obtain ⟨hqe, hset, hclear⟩ := ih h
    refine ⟨hqe, hset, fun x hx hxq => ?_⟩
    rcases Nat.eq_or_lt_of_le hx with rfl | hlt
    · simpa using hq
    · exact hclear x hlt hxq
  | case3 => cases h

/-- When the byte scan finds nothing, no byte left has its top bit set. -/
theorem searchNonasciiTail_none {e p : ℕ} (h : searchNonasciiTail s e p = none) :
    ∀ x, p ≤ x → x < e → s.getD x 0 &&& 0x80 = 0 := by
  fun_induction searchNonasciiTail s e p with
  | case1 => cases h
  | case2 p hp hq ih =>
    intro x hx hxe
    rcases Nat.eq_or_lt_of_le hx with rfl | hlt
    · simpa using hq
    · exact ih h x hlt hxe
  | case3 p hp => exact fun x hx hxe => absurd hxe (by omega)

/-- Bit `8 * j + r` of `*s & NONASCII_MASK` is the top bit of lane `j`. -/
theorem testBit_nonascii (p j : ℕ) {r : ℕ} (hr : r < 8) :
    (leVal s p 8 &&& nonasciiMask).testBit (8 * j + r) =
      (decide (j < 8) && decide (r = 7) && (byteAt s (p + j)).testBit 7) := by
  have hmask : nonasciiMask = leVal (List.replicate 8 0x80) 0 8 := rfl
  rw [Nat.testBit_and, hmask, testBit_leVal p 8 hr, testBit_leVal 0 8 hr]
  by_cases hj : j < 8
  · rw [Nat.zero_add, byteAt_replicate _ hj, show (0x80 : UInt8).toNat = 2 ^ 7 from rfl,
      Nat.testBit_two_pow]
    by_cases hr7 : r = 7
    · subst hr7
      simp [hj, Bool.and_comm]
    · simp [hj, hr7, Ne.symm hr7]
  · simp [hj]

/-- **`ntz_intptr(*s & NONASCII_MASK) >> 3` is the lane of the first byte whose top bit is
set.** -/
theorem ntzIntptr_nonascii {p j : ℕ} (hj : j < 8) (hset : (byteAt s (p + j)).testBit 7 = true)
    (hclear : ∀ k < j, (byteAt s (p + k)).testBit 7 = false) :
    ntzIntptr (leVal s p 8 &&& nonasciiMask) >>> 3 = j := by
  have hz : ntzIntptr (leVal s p 8 &&& nonasciiMask) = 8 * j + 7 := by
    apply trailingZeros_eq (by omega) (by rw [testBit_nonascii p j (by omega)]; simp [hj, hset])
    intro i hi
    -- a bit below lane `j`'s top bit: another bit of a lane, or the top bit of an earlier lane
    obtain ⟨k, r, hr, rfl⟩ : ∃ k r, r < 8 ∧ i = 8 * k + r :=
      ⟨i / 8, i % 8, Nat.mod_lt _ (by norm_num), (Nat.div_add_mod i 8).symm⟩
    rw [testBit_nonascii p k hr]
    by_cases hr7 : r = 7
    · simp [hr7, hclear k (by omega)]
    · simp [hr7]
  rw [hz, Nat.shiftRight_eq_div_pow]
  omega

/-- **`search_nonascii` finds the first byte whose top bit is set**, as the byte scan does. -/
theorem searchNonascii_eq (e p : ℕ) : searchNonascii s e p = searchNonasciiTail s e p := by
  fun_induction searchNonascii s e p with
  | case1 p hpe hw =>
    -- a word with a top bit set: its first such lane is where the byte scan stops
    have hex : ∃ j, j < 8 ∧ (byteAt s (p + j)).testBit 7 = true := by
      by_contra hno
      push Not at hno
      apply hw
      apply Nat.eq_of_testBit_eq
      intro i
      obtain ⟨k, r, hr, rfl⟩ : ∃ k r, r < 8 ∧ i = 8 * k + r :=
        ⟨i / 8, i % 8, Nat.mod_lt _ (by norm_num), (Nat.div_add_mod i 8).symm⟩
      rw [testBit_nonascii p k hr, Nat.zero_testBit]
      by_cases hk : k < 8
      · simp [hno k hk]
      · simp [hk]
    classical
    let j := Nat.find hex
    have hj : j < 8 ∧ (byteAt s (p + j)).testBit 7 = true := Nat.find_spec hex
    have hclear : ∀ k < j, (byteAt s (p + k)).testBit 7 = false := fun k hk => by
      have := Nat.find_min hex hk
      simp only [not_and, Bool.not_eq_true] at this
      exact this (by omega)
    rw [ntzIntptr_nonascii hj.1 hj.2 hclear]
    refine (searchNonasciiTail_first (fun k hk => ?_) ?_ (by simp only [sizeofVoidp] at hpe; omega)).symm
    · rw [and_0x80_eq_zero]
      exact hclear k hk
    · rw [ne_eq, and_0x80_eq_zero, Bool.not_eq_false]
      exact hj.2
  | case2 p hpe hw ih =>
    -- no top bit in the word: the byte scan passes its eight bytes
    have hclear : ∀ k < sizeofVoidp, s.getD (p + k) 0 &&& 0x80 = 0 := by
      intro k hk
      have hbit : (leVal s p 8 &&& nonasciiMask).testBit (8 * k + 7) = false := by
        rw [not_not.mp hw, Nat.zero_testBit]
      rw [testBit_nonascii p k (by norm_num)] at hbit
      simp only [sizeofVoidp] at hk
      rw [and_0x80_eq_zero]
      simpa [hk, byteAt] using hbit
    rw [ih, searchNonasciiTail_skip hclear (by simp only [sizeofVoidp] at *; omega)]
  | case3 p hpe => rfl

/-! ## Counting lead bytes a word at a time -/

/-- The marks of the word at `w`: `1` in each lane that holds a lead byte, `0` elsewhere. -/
def leadMarks (s : List UInt8) (w : ℕ) : List UInt8 :=
  (List.range 8).map fun j => (utf8Islead (s.getD (w + j) 0)).toUInt8

set_option maxRecDepth 4000 in
/-- A lead byte is one whose top two bits are not `10`. -/
theorem utf8Islead_eq_testBit : ∀ c : UInt8, utf8Islead c = (c.toNat.testBit 6 || !c.toNat.testBit 7) := by
  apply uint8_forall
  decide

theorem byteAt_leadMarks (w : ℕ) {j : ℕ} (hj : j < 8) :
    byteAt (leadMarks s w) j = (utf8Islead (s.getD (w + j) 0)).toNat := by
  rw [byteAt, leadMarks, List.getD_eq_getElem?_getD, List.getElem?_map, List.getElem?_range hj,
    Option.map_some, Option.getD_some]
  cases utf8Islead (s.getD (w + j) 0) <;> rfl

theorem utf8Islead_getD (i : ℕ) :
    utf8Islead (s.getD i 0) = ((byteAt s i).testBit 6 || !(byteAt s i).testBit 7) :=
  utf8Islead_eq_testBit _

/-- **`(d >> 6) | (~d >> 7)`, masked to bit 0 of each lane, marks the lead bytes** of the
word. -/
theorem leadMask_leVal (w : ℕ) :
    (leVal s w 8 >>> 6 ||| (2 ^ 64 - 1 - leVal s w 8) >>> 7) &&& (nonasciiMask >>> 7) =
      leVal (leadMarks s w) 0 8 := by
  have hmask : nonasciiMask >>> 7 = leVal (List.replicate 8 1) 0 8 := rfl
  have hlt : leVal s w 8 < 2 ^ 64 := leVal_lt w 8
  apply Nat.eq_of_testBit_eq
  intro i
  obtain ⟨j, r, hr, rfl⟩ : ∃ j r, r < 8 ∧ i = 8 * j + r :=
    ⟨i / 8, i % 8, Nat.mod_lt _ (by norm_num), (Nat.div_add_mod i 8).symm⟩
  rw [Nat.testBit_and, Nat.testBit_or, Nat.testBit_shiftRight, Nat.testBit_shiftRight, hmask,
    testBit_leVal 0 8 hr, testBit_leVal 0 8 hr]
  by_cases hj : j < 8
  · rw [Nat.zero_add, byteAt_replicate 1 hj, byteAt_leadMarks w hj]
    by_cases hr0 : r = 0
    · -- bit 0 of a lane: bit 6 of the byte, or bit 7 clear
      subst hr0
      rw [show 6 + (8 * j + 0) = 8 * j + 6 by omega, show 7 + (8 * j + 0) = 8 * j + 7 by omega,
        testBit_leVal (r := 6) w 8 (by decide) j, testBit_complement hlt,
        testBit_leVal (r := 7) w 8 (by decide) j, utf8Islead_getD]
      cases (byteAt s (w + j)).testBit 6 <;> cases (byteAt s (w + j)).testBit 7 <;>
        simp [hj, show 8 * j + 7 < 64 by omega]
    · -- the other bits of a lane are clear on both sides
      have h1 : Nat.testBit 1 r = false := by
        rw [show (1 : ℕ) = 2 ^ 0 from rfl, Nat.testBit_two_pow]
        simp [Ne.symm hr0]
      cases utf8Islead (s.getD (w + j) 0) <;> simp [hj, h1]
  · simp [hj]

theorem leadsIn_succ_toNat {p q : ℕ} (h : p < q) :
    leadsIn s p q = (utf8Islead (s.getD p 0)).toNat + leadsIn s (p + 1) q := by
  rw [leadsIn_succ h]
  cases utf8Islead (s.getD p 0) <;> rfl

/-- **`count_utf8_lead_bytes_with_word` counts the lead bytes of a word.** -/
theorem countUtf8LeadBytesWithWord_leVal (w : ℕ) :
    countUtf8LeadBytesWithWord (leVal s w 8) = leadsIn s w (w + 8) := by
  rw [countUtf8LeadBytesWithWord, leadMask_leVal, leadMarks]
  rw [show List.range 8 = [0, 1, 2, 3, 4, 5, 6, 7] from rfl, List.map, List.map, List.map, List.map,
    List.map, List.map, List.map, List.map, List.map, addLanes_bits]
  -- the eight bytes of the word, one at a time
  have hlane : ∀ k < 8, leadsIn s (w + k) (w + 8) =
      (utf8Islead (s.getD (w + k) 0)).toNat + leadsIn s (w + (k + 1)) (w + 8) :=
    fun k hk => leadsIn_succ_toNat (by omega)
  rw [show leadsIn s w (w + 8) = leadsIn s (w + 0) (w + 8) from rfl, hlane 0 (by decide),
    hlane 1 (by decide), hlane 2 (by decide), hlane 3 (by decide), hlane 4 (by decide),
    hlane 5 (by decide), hlane 6 (by decide), hlane 7 (by decide), leadsIn_self]
  omega
/-- `utf8WordCount` adds the lead bytes of the words from `w` to `t`. -/
theorem utf8WordCount_eq {t w : ℕ} (len : ℕ) (hwt : w ≤ t) (h8 : (t - w) % 8 = 0) :
    utf8WordCount s t w len = (t, len + leadsIn s w t) := by
  fun_induction utf8WordCount s t w len with
  | case1 w len hw ih =>
    simp only [sizeofVoidp] at ih ⊢
    rw [ih (by omega) (by omega), countUtf8LeadBytesWithWord_leVal,
      leadsIn_add (p := w) (q := w + 8) (r := t) (by omega) (by omega), Nat.add_assoc]
  | case2 w len hw => rw [show w = t by omega, leadsIn_self, Nat.add_zero]

/-- **The word loop of `str_utf8_nth` stops after a whole word**, no later than `t`, with the
lead bytes it passed taken off `nth`, and `nth` not below zero: it reads a word only while
`SIZEOF_VOIDP <= nth`, and a word holds at most eight lead bytes. -/
theorem utf8WordSkip_spec {t w : ℕ} {nth : ℤ} (hwt : w + 8 ≤ t) (h8 : (t - w) % 8 = 0)
    (hnth : 8 ≤ nth) :
    w < (utf8WordSkip s t w nth).1 ∧ (utf8WordSkip s t w nth).1 ≤ t ∧
      (utf8WordSkip s t w nth).2 = nth - leadsIn s w (utf8WordSkip s t w nth).1 ∧
      0 ≤ (utf8WordSkip s t w nth).2 := by
  fun_induction utf8WordSkip s t w nth with
  | case1 w nth nth' hcont ih =>
    -- another word: the words after it are counted by the induction
    simp only [sizeofVoidp] at hcont ih ⊢
    have hn' : nth' = nth - leadsIn s w (w + 8) := by rw [← countUtf8LeadBytesWithWord_leVal]
    obtain ⟨h1, h2, h3, h4⟩ := ih (by omega) (by omega) (by omega)
    have hsplit := leadsIn_add (s := s) (show w ≤ w + 8 by omega) h1.le
    exact ⟨by omega, h2, by omega, h4⟩
  | case2 w nth nth' hstop =>
    -- the last word: at most eight lead bytes, so `nth` stays at least zero
    simp only [sizeofVoidp] at hstop ⊢
    have hn' : nth' = nth - leadsIn s w (w + 8) := by rw [← countUtf8LeadBytesWithWord_leVal]
    have hle := leadsIn_le (s := s) w (w + 8)
    exact ⟨by omega, hwt, hn', by omega⟩

/-- **`str_utf8_nth` stops where its byte loop stops**, wherever the string lies: the lead bytes
before the first word and in the words are all before character `nth`. -/
theorem strUtf8Nth_eq (addr : ℕ) {p e : ℕ} (nth : ℤ) (hpe : p ≤ e) :
    strUtf8Nth s addr p e nth = utf8NthLoop s e p nth := by
  unfold strUtf8Nth
  split_ifs with hw
  · obtain ⟨hlen, hn⟩ := hw
    dsimp only
    simp only [sizeofVoidp] at hlen hn
    -- the words run from `p` rounded up to `e` rounded down, both inside `[p, e]`
    have hws : p ≤ alignUp (addr + p) - addr ∧ alignUp (addr + p) - addr ≤ p + 7 := by
      simp only [alignUp, sizeofVoidp]
      omega
    have hwt : alignUp (addr + p) - addr + 8 ≤ alignDown (addr + e) - addr ∧
        alignDown (addr + e) - addr ≤ e ∧
        (alignDown (addr + e) - addr - (alignUp (addr + p) - addr)) % 8 = 0 := by
      simp only [alignUp, alignDown, sizeofVoidp]
      omega
    set ws := alignUp (addr + p) - addr
    set wt := alignDown (addr + e) - addr
    -- the bytes before the first word, then the words, take their lead bytes off `nth`
    have hskip := utf8LeadSkip_eq (s := s) ws p nth
    have hlead := leadsIn_le (s := s) p ws
    obtain ⟨h1, h2, h3, h4⟩ :=
      utf8WordSkip_spec (s := s) hwt.1 hwt.2.2 (show 8 ≤ utf8LeadSkip s ws p nth by omega)
    set r := utf8WordSkip s wt ws (utf8LeadSkip s ws p nth)
    have hsplit := leadsIn_add (s := s) hws.1 h1.le
    rw [utf8NthLoop_skip (p := p) (q := r.1) (by omega) (by omega) (by omega)]
    congr 1
    omega
  · rfl

/-- **The UTF-8 count of `enc_strlen` is the number of lead bytes**, wherever the string lies. -/
theorem encStrlen_utf8 (enc : Encoding) (addr : ℕ) {cr : Coderange}
    (hfix : enc.maxEncLen ≠ enc.minEncLen) (hcr : cr = .valid ∧ enc.index = encindexUtf8) :
    encStrlen enc s addr cr = leadsIn s 0 s.length := by
  rw [encStrlen]
  dsimp only
  rw [if_neg hfix, if_pos hcr]
  split_ifs with hlen
  · simp only [sizeofVoidp] at hlen
    -- the words run from the first aligned byte to the last aligned one
    have hw : alignUp addr - addr ≤ alignDown (addr + s.length) - addr ∧
        alignDown (addr + s.length) - addr ≤ s.length ∧
        (alignDown (addr + s.length) - addr - (alignUp addr - addr)) % 8 = 0 := by
      simp only [alignUp, alignDown, sizeofVoidp]
      omega
    rw [utf8LeadCount_eq, utf8WordCount_eq _ hw.1 hw.2.2, utf8LeadCount_eq, Nat.zero_add,
      ← leadsIn_add (Nat.zero_le _) hw.1, ← leadsIn_add (Nat.zero_le _) hw.2.1]
  · rw [utf8LeadCount_eq, Nat.zero_add]

end CRuby.Str
