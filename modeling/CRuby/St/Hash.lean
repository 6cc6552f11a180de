import CRuby.Lib.ByteWord

/-!
# `st_hash`: the byte-string hash of `st.c`

`stHash be align bs h` is `st_hash(ptr, len, h)` on a build with an eight-byte `st_index_t`,
eight-bit `char` and no `UNALIGNED_WORD_ACCESS`, so that words are only read from aligned
addresses. `be` is `WORDS_BIGENDIAN`, `bs` is the string `ptr[0 .. len)` and `align` is the
address of `ptr` modulo 8; nothing else of the address is read.

From an aligned address the hash reads the string word by word (`alignedLoop`) and mixes the
last `len % 8` bytes in through the fall-through `switch` (`tailAdd`, `hashTail`). From an
unaligned one it first gathers the `8 - align` bytes before the next aligned address into a
carry word (`headAdd`), then reads aligned words and glues each to the carry with two shifts
(`combine`, `unalignedLoop`), and ends with a pack of at most `align` bytes, jumping straight to
the tail mix (`skip_tail`) when the string ends inside the pack (`unalignedHash`).

`st_hash_ignores_alignment` shows that the second path hashes the same words as the first, so
the hash of a string does not depend on where it lies. Its invariant (`Carry`) says that the
carry holds the next `8 - align` bytes in the lanes that `combine` moves to the front; the lane
arithmetic is `ByteWord`'s.
-/

namespace CRuby.St

open ByteWord

/-! ## The hash -/

/-- `C1` of `st.c` for an eight-byte `st_index_t`. -/
def c1 : UInt64 := 0x87c37b91114253d5

/-- `C2` of `st.c` for an eight-byte `st_index_t`. -/
def c2 : UInt64 := 0x4cf5ad432745937f

/-- `ROTL(x, n)` on a 64-bit word. -/
def rotl (x n : UInt64) : UInt64 := x <<< n ||| x >>> (64 - n)

def murmurStep (h k : UInt64) : UInt64 :=
  let k := k * c1
  let h := h ^^^ rotl k 33
  let h := h * c2
  rotl h 24

def murmurFinish (h : UInt64) : UInt64 :=
  let h := h ^^^ h >>> 30
  let h := h * 0xbf58476d1ce4e5b9
  let h := h ^^^ h >>> 27
  let h := h * 0x94d049bb133111eb
  h ^^^ h >>> 31

/-- `data_at(n)` with `data` at index `pos` of the string. -/
def dataAt (bs : List UInt8) (pos : ℕ) : UInt64 := (bs.getD pos 0).toUInt64

/-- The `switch (align)` before the unaligned loop: entered at `case align`, it falls through
`UNALIGNED_ADD(7 - align)` down to `UNALIGNED_ADD(0)`, each `t |= data_at(n) << CHAR_BIT*(..)`. -/
def headAdd (be : Bool) (bs : List UInt8) (align : ℕ) : UInt64 :=
  (List.range (8 - align)).foldr
    (fun n t => t ||| dataAt bs n <<< (if be then 8 * (8 - n - 2) else 8 * n).toUInt64) 0

/-- A `switch (len)` of `case (n) + 1: UNALIGNED_ADD(n)` blocks, entered at `case len` and
falling through to `UNALIGNED_ADD(0)`, over the bytes from index `pos`; both the pack and the
tail are this block. -/
def tailAdd (be : Bool) (bs : List UInt8) (pos len : ℕ) : UInt64 :=
  (List.range len).foldr
    (fun n t => t ||| dataAt bs (pos + n) <<< (if be then 8 * (8 - n - 1) else 8 * n).toUInt64) 0

/-- `*(st_index_t *)data` at index `pos`: the eight bytes in memory order, so byte `n` where the
tail block puts it. -/
def loadWord (be : Bool) (bs : List UInt8) (pos : ℕ) : UInt64 := tailAdd be bs pos 8

/-- `(t >> sr) | (d << sl)`, or `(t << sr) | (d >> sl)` on a big-endian machine. -/
def combine (be : Bool) (sl sr t d : UInt64) : UInt64 :=
  if be then t <<< sr ||| d >>> sl else t >>> sr ||| d <<< sl

/-- The block at `skip_tail`: `h ^= t; h -= ROTL(t, 7); h *= C2;`. -/
def tailMix (h t : UInt64) : UInt64 := ((h ^^^ t) - rotl t 7) * c2

/-- `t = 0; switch (len) { .. }` after the word loops: no mixing when no byte is left. -/
def hashTail (be : Bool) (bs : List UInt8) (pos len : ℕ) (h : UInt64) : UInt64 :=
  if len = 0 then h else tailMix h (tailAdd be bs pos len)

/-- The `do .. while (len >= sizeof(st_index_t))` loop of the aligned path: `count` words from
index `pos`, the `i`-th at `pos + 8 * i`. -/
def alignedLoop (be : Bool) (bs : List UInt8) (count pos : ℕ) (h : UInt64) : UInt64 :=
  (List.range count).foldl (fun h i => murmurStep h (loadWord be bs (pos + 8 * i))) h

/-- The `while (len >= sizeof(st_index_t))` loop of the unaligned path: `count` words from index
`pos`, with the hash and the carry `t`; each turn reads `d`, mixes `combine t d` in and keeps `d`
as the carry. -/
def unalignedLoop (be : Bool) (bs : List UInt8) (sl sr : UInt64) (count pos : ℕ) (h t : UInt64) :
    UInt64 × UInt64 :=
  (List.range count).foldl
    (fun ht i =>
      let d := loadWord be bs (pos + 8 * i)
      (murmurStep ht.1 (combine be sl sr ht.2 d), d))
    (h, t)

/-- The `if (align)` branch of `st_hash`, for a string of at least eight bytes, up to and
including the tail mix. -/
def unalignedHash (be : Bool) (align : ℕ) (bs : List UInt8) (h : UInt64) : UInt64 :=
  let t := headAdd be bs align
  let t := if be then t >>> (8 * align - 8).toUInt64 else t <<< (8 * align).toUInt64
  let len := bs.length - (8 - align)
  let sl := (8 * (8 - align)).toUInt64
  let sr := (8 * align).toUInt64
  let r := unalignedLoop be bs sl sr (len / 8) (8 - align) h t
  let pos := 8 - align + 8 * (len / 8)
  let len := len % 8
  let pack := if len < align then len else align
  let t := combine be sl sr r.2 (tailAdd be bs pos pack)
  -- `if (len < (size_t)align) goto skip_tail;`
  if len < align then tailMix r.1 t
  else hashTail be bs (pos + pack) (len - pack) (murmurStep r.1 t)

def stHash (be : Bool) (align : ℕ) (bs : List UInt8) (h : UInt64) : UInt64 :=
  let l := bs.length
  let h :=
    if 8 ≤ l then
      if align ≠ 0 then unalignedHash be align bs h
      else hashTail be bs (8 * (l / 8)) (l % 8) (alignedLoop be bs (l / 8) 0 h)
    else hashTail be bs 0 l h
  murmurFinish (h ^^^ l.toUInt64)

/-! ## Words built from bytes -/

section Bytes

variable {be : Bool} {bs : List UInt8}

theorem toNat_shiftLeft_bytes (x : UInt64) {m : ℕ} (hm : m < 8) :
    (x <<< (8 * m).toUInt64).toNat = (x.toNat <<< (8 * m)) % 2 ^ 64 := by
  rw [UInt64.toNat_shiftLeft, Nat.toUInt64_eq, UInt64.toNat_ofNat',
    Nat.mod_eq_of_lt (by omega : 8 * m < 2 ^ 64), Nat.mod_eq_of_lt (by omega : 8 * m < 64)]

theorem toNat_shiftRight_bytes (x : UInt64) {m : ℕ} (hm : m < 8) :
    (x >>> (8 * m).toUInt64).toNat = x.toNat >>> (8 * m) := by
  rw [UInt64.toNat_shiftRight, Nat.toUInt64_eq, UInt64.toNat_ofNat',
    Nat.mod_eq_of_lt (by omega : 8 * m < 2 ^ 64), Nat.mod_eq_of_lt (by omega : 8 * m < 64)]

/-- `data_at(n) << CHAR_BIT*lane` is the byte alone in its lane. -/
theorem dataAt_shiftLeft_toNat (bs : List UInt8) (pos : ℕ) {lane : ℕ} (hl : lane < 8) :
    (dataAt bs pos <<< (8 * lane).toUInt64).toNat = byteAt bs pos * 2 ^ (8 * lane) := by
  rw [toNat_shiftLeft_bytes _ hl, dataAt, UInt8.toNat_toUInt64, Nat.shiftLeft_eq]
  exact Nat.mod_eq_of_lt (mul_two_pow_lt (byteAt_lt bs pos) (by omega))

theorem foldr_or (g : ℕ → UInt64) (l : List ℕ) (x : UInt64) :
    l.foldr (fun n t => t ||| g n) x = l.foldr (fun n t => t ||| g n) 0 ||| x := by
  induction l with
  | nil => exact UInt64.zero_or.symm
  | cons n l ih =>
    simp only [List.foldr_cons, ih]
    ac_rfl

/-- A fall-through block of `UNALIGNED_ADD`s that puts byte `n` in lane `off + n` builds the
window of its bytes. By induction on the number of cases run: the block of `k + 1` cases is the
block of `k` with the last byte `|`-ed in. -/
theorem orBytes_toNat (q off : ℕ) (g : ℕ → UInt64) :
    ∀ k, off + k ≤ 8 → (∀ n < k, (g n).toNat = window be bs (q + n) (off + n) 1) →
      ((List.range k).foldr (fun n t => t ||| g n) 0).toNat = window be bs q off k := by
  intro k
  induction k with
  | zero =>
    intro _ _
    rw [window_zero]
    rfl
  | succ k ih =>
    intro hk hg
    rw [List.range_succ, List.foldr_append, List.foldr_cons, List.foldr_nil, foldr_or,
      UInt64.zero_or, UInt64.toNat_or, ih (by omega) (fun n hn => hg n (by omega)),
      hg k (by omega), window_or be q (by omega)]

theorem tailAdd_toNat (pos : ℕ) {k : ℕ} (hk : k ≤ 8) :
    (tailAdd be bs pos k).toNat = window be bs pos 0 k := by
  apply orBytes_toNat pos 0 _ k (by omega)
  intro n hn
  rw [window_one, zero_add]
  cases be
  · exact dataAt_shiftLeft_toNat bs (pos + n) (by omega)
  · rw [if_pos rfl, if_pos rfl, show 8 - n - 1 = 7 - n by omega]
    exact dataAt_shiftLeft_toNat bs (pos + n) (by omega)

theorem loadWord_toNat (pos : ℕ) : (loadWord be bs pos).toNat = window be bs pos 0 8 :=
  tailAdd_toNat pos le_rfl

/-- The head block puts byte `n` in lane `n`, or in lane `n + 1` on a big-endian machine. -/
theorem headAdd_toNat {align : ℕ} (ha : 0 < align) :
    (headAdd be bs align).toNat = window be bs 0 (if be then 1 else 0) (8 - align) := by
  apply orBytes_toNat 0 (if be then 1 else 0) _ (8 - align) (by split <;> omega)
  intro n hn
  rw [window_one, zero_add]
  cases be
  · simp only [Bool.false_eq_true, if_false, zero_add]
    exact @dataAt_shiftLeft_toNat bs n n (by omega)
  · rw [if_pos rfl, if_pos rfl, show 8 - n - 2 = 7 - (1 + n) by omega]
    exact @dataAt_shiftLeft_toNat bs n (7 - (1 + n)) (by omega)

end Bytes

/-! ## The carry word of the unaligned path -/

section Carry

variable {be : Bool} {bs : List UInt8} {align : ℕ}

/-- The carry `t` holds the `8 - align` bytes from index `q` in the lanes that `combine` moves
to the front. -/
def Carry (be : Bool) (align : ℕ) (bs : List UInt8) (q : ℕ) (t : UInt64) : Prop :=
  shiftFront be align t.toNat = window be bs q 0 (8 - align)

variable (ha : 0 < align) (ha8 : align < 8)
include ha ha8

theorem combine_toNat (t d : UInt64) :
    (combine be (8 * (8 - align)).toUInt64 (8 * align).toUInt64 t d).toNat =
      shiftFront be align t.toNat ||| shiftBack be (8 - align) d.toNat := by
  cases be
  · simp only [combine, shiftFront, shiftBack, Bool.false_eq_true, if_false, UInt64.toNat_or,
      toNat_shiftRight_bytes t ha8, toNat_shiftLeft_bytes d (show 8 - align < 8 by omega)]
  · simp only [combine, shiftFront, shiftBack, if_true, UInt64.toNat_or,
      toNat_shiftLeft_bytes t ha8, toNat_shiftRight_bytes d (show 8 - align < 8 by omega)]

/-- The head block, shifted into place, is a carry of the first `8 - align` bytes. -/
theorem carry_head :
    Carry be align bs 0
      (if be then headAdd be bs align >>> (8 * align - 8).toUInt64
        else headAdd be bs align <<< (8 * align).toUInt64) := by
  -- the shift moves the bytes to the lanes from `align`
  have hmoved : (if be then headAdd be bs align >>> (8 * align - 8).toUInt64
      else headAdd be bs align <<< (8 * align).toUInt64).toNat = window be bs 0 align (8 - align) := by
    cases be
    · rw [if_neg Bool.false_ne_true, toNat_shiftLeft_bytes _ ha8, headAdd_toNat ha,
        if_neg Bool.false_ne_true]
      have hmove := @shiftBack_window bs false 0 align 0 (8 - align) (by omega)
      rwa [zero_add] at hmove
    · rw [if_pos rfl, show 8 * align - 8 = 8 * (align - 1) by omega,
        toNat_shiftRight_bytes _ (by omega), headAdd_toNat ha, if_pos rfl]
      have hmove := @shiftBack_window bs true 0 (align - 1) 1 (8 - align) (by omega)
      rwa [show 1 + (align - 1) = align by omega] at hmove
  rw [Carry, hmoved, @shiftFront_window bs be 0 align align (8 - align) le_rfl (by omega),
    Nat.sub_self]

/-- **One turn of the unaligned loop.** Glued to the carry, the word read `8 - align` bytes
further is the aligned word at `q`, and it is the carry for `q + 8`. -/
theorem combine_word {q : ℕ} {t : UInt64} (hc : Carry be align bs q t) :
    combine be (8 * (8 - align)).toUInt64 (8 * align).toUInt64 t
      (loadWord be bs (q + (8 - align))) = loadWord be bs q := by
  apply UInt64.toNat_inj.mp
  have hjoin := @window_or bs be q 0 (8 - align) align (by omega)
  rw [zero_add, Nat.sub_add_cancel ha8.le] at hjoin
  rw [combine_toNat ha ha8, hc, loadWord_toNat, shiftBack_window_full be _ (by omega),
    Nat.sub_sub_self ha8.le, hjoin, loadWord_toNat]

theorem carry_word (q : ℕ) : Carry be align bs (q + 8) (loadWord be bs (q + (8 - align))) := by
  rw [Carry, loadWord_toNat, shiftFront_window_full be _ ha8.le,
    show q + (8 - align) + align = q + 8 by omega]

/-- The pack: `k ≤ align` more bytes glued to the carry make the window of `8 - align + k`
bytes from `q`. -/
theorem combine_pack {q k : ℕ} {t : UInt64} (hc : Carry be align bs q t) (hk : k ≤ align) :
    (combine be (8 * (8 - align)).toUInt64 (8 * align).toUInt64 t
      (tailAdd be bs (q + (8 - align)) k)).toNat = window be bs q 0 (8 - align + k) := by
  have hmoved := @shiftBack_window bs be (q + (8 - align)) (8 - align) 0 k (by omega)
  rw [zero_add] at hmoved
  rw [combine_toNat ha ha8, hc, tailAdd_toNat _ (by omega), hmoved]
  have hjoin := @window_or bs be q 0 (8 - align) k (by omega)
  rwa [zero_add] at hjoin

end Carry

/-! ## Both paths hash the same words -/

section Paths

variable {be : Bool} {bs : List UInt8}

/-- One more turn of the aligned loop mixes in the word after the last. -/
theorem alignedLoop_succ (n q : ℕ) (h : UInt64) :
    alignedLoop be bs (n + 1) q h =
      murmurStep (alignedLoop be bs n q h) (loadWord be bs (q + 8 * n)) := by
  rw [alignedLoop, List.range_succ, List.foldl_append, List.foldl_cons, List.foldl_nil]
  rfl

/-- **The unaligned loop hashes the aligned words.** Started `8 - align` bytes after index `q`
with a carry of the bytes in between, `n` turns mix in the `n` words from `q` and leave a carry
for `q + 8 * n`. By induction on `n`, the last turn being `combine_word`. -/
theorem unalignedLoop_spec {align : ℕ} (ha : 0 < align) (ha8 : align < 8) (q : ℕ) (h t : UInt64)
    (hc : Carry be align bs q t) (n : ℕ) : ∃ t',
      unalignedLoop be bs (8 * (8 - align)).toUInt64 (8 * align).toUInt64 n (q + (8 - align))
          h t = (alignedLoop be bs n q h, t') ∧ Carry be align bs (q + 8 * n) t' := by
  induction n with
  | zero => exact ⟨t, rfl, hc⟩
  | succ n ih =>
    obtain ⟨t', hrun, hc'⟩ := ih
    have hd : q + (8 - align) + 8 * n = q + 8 * n + (8 - align) := by omega
    refine ⟨loadWord be bs (q + 8 * n + (8 - align)), ?_, ?_⟩
    · rw [unalignedLoop, List.range_succ, List.foldl_append, ← unalignedLoop, hrun,
        List.foldl_cons, List.foldl_nil, alignedLoop_succ]
      simp only [hd, combine_word ha ha8 hc']
    · rw [show q + 8 * (n + 1) = q + 8 * n + 8 by ring]
      exact carry_word ha ha8 (q + 8 * n)

/-- The unaligned branch, head to tail, computes what the aligned branch computes. -/
theorem unalignedHash_eq {align : ℕ} (ha : 0 < align) (ha8 : align < 8) (h : UInt64)
    (hl : 8 ≤ bs.length) :
    unalignedHash be align bs h =
      hashTail be bs (8 * (bs.length / 8)) (bs.length % 8) (alignedLoop be bs (bs.length / 8) 0 h) := by
  -- `j` words go through the loop and `r` bytes are left after it
  obtain ⟨j, r, hr, hlen⟩ : ∃ j r, r < 8 ∧ bs.length - (8 - align) = 8 * j + r :=
    ⟨_, _, Nat.mod_lt _ (by omega), (Nat.div_add_mod _ 8).symm⟩
  have hj : (bs.length - (8 - align)) / 8 = j := by omega
  have hr' : (bs.length - (8 - align)) % 8 = r := by omega
  obtain ⟨t, hrun, hc⟩ := @unalignedLoop_spec be bs align ha ha8 0 h _ (carry_head ha ha8) j
  simp only [zero_add] at hrun hc
  simp only [unalignedHash, hj, hr', hrun, show 8 - align + 8 * j = 8 * j + (8 - align) by ring]
  split_ifs with hlt
  · -- the string ends inside the pack: `goto skip_tail` with the last `8 - align + r` bytes
    rw [show bs.length / 8 = j by omega, show bs.length % 8 = 8 - align + r by omega, hashTail,
      if_neg (by omega)]
    congr 1
    apply UInt64.toNat_inj.mp
    rw [combine_pack ha ha8 hc hlt.le, tailAdd_toNat _ (by omega)]
  · -- the pack completes the word at `8 * j`, and `r - align` bytes are left
    have hword : combine be (8 * (8 - align)).toUInt64 (8 * align).toUInt64 t
        (tailAdd be bs (8 * j + (8 - align)) align) = loadWord be bs (8 * j) := by
      apply UInt64.toNat_inj.mp
      rw [combine_pack ha ha8 hc le_rfl, Nat.sub_add_cancel ha8.le, loadWord_toNat]
    rw [hword, show bs.length / 8 = j + 1 by omega, show bs.length % 8 = r - align by omega,
      alignedLoop_succ, zero_add, show 8 * j + (8 - align) + align = 8 * (j + 1) by omega]

end Paths

/-- **`st_hash` does not depend on where the string lies.** For every byte order, string and
seed, the hash from an address `align` bytes past a word boundary is the hash from an aligned
address. -/
theorem st_hash_ignores_alignment (be : Bool) (align : ℕ) (bs : List UInt8) (h : UInt64)
    (ha8 : align < 8) : stHash be align bs h = stHash be 0 bs h := by
  rcases Nat.eq_zero_or_pos align with rfl | ha
  · rfl
  · simp only [stHash]
    by_cases hl : 8 ≤ bs.length
    · rw [if_pos hl, if_pos hl, if_pos (Nat.pos_iff_ne_zero.mp ha), if_neg (not_not.mpr rfl),
        unalignedHash_eq ha ha8 h hl]
    · rw [if_neg hl, if_neg hl]

theorem st_hash_ignores_alignment_of_five :
    (5 : ℕ) < 8 ∧ stHash true 5 [1, 2, 3, 4, 5, 6, 7, 8, 9, 10, 11, 12, 13] 7 =
      stHash true 0 [1, 2, 3, 4, 5, 6, 7, 8, 9, 10, 11, 12, 13] 7 :=
  ⟨by decide, st_hash_ignores_alignment true 5 _ 7 (by decide)⟩

end CRuby.St
