import CRuby.Num.IntegerPackSpec

/-!
# The `'w'` directives: BER-compressed integers (pack.c)

`pack('w')` writes a non-negative `Integer` in base 128, most significant digit first, with the
high bit set on every byte but the last: `rb_absint_numwords` counts the 7-bit words,
`rb_integer_pack` writes them into bytes with one nail bit, and a loop sets the continuation
bits. A negative number raises `ArgumentError`. `unpack('w')` cuts the bytes after each byte
without the high bit and reads each piece with `rb_integer_unpack`, one nail bit again.

`packW` and `unpackW` are the directives with the count `*`. For every list of non-negative
integers, `unpack('w*')` of `pack('w*')` is the list, and a list with a negative number raises
(`unpack_w_pack_w`).
-/

namespace CRuby.Pack

open CRuby.Num

/-- What the `'w'` case of `pack_pack` raises: an `ArgumentError`, or an `rb_bug`, which aborts
the process. -/
inductive PackWError
  | argumentError (msg : String)
  | bug (msg : String)
  deriving DecidableEq, Repr

/-- The message of the `ArgumentError` for a negative number. -/
def negativeMsg : String := "can't compress negative numbers"

/-- `while (1 < numbytes) { *cp |= 0x80; cp++; numbytes--; }`: the continuation bit on every
byte but the last. -/
def berMark : List UInt8 → List UInt8
  | b :: c :: bs => (b ||| 0x80) :: berMark (c :: bs)
  | bs => bs

/-- One item of the `'w'` case of `pack_pack`, after `rb_to_int`. -/
def packWItem (x : ℤ) : Except PackWError (List UInt8) :=
  let numbytes := rbAbsintNumwords x 7
  let numbytes := if numbytes = 0 then 1 else numbytes
  let (sign, buf) := rbIntegerPack x numbytes 1 1 true true
  if sign < 0 then .error (.argumentError negativeMsg)
  else if sign = 2 then .error (.bug "buffer size problem?")
  else .ok (berMark buf)

/-- `pack('w*')`: the items one after the other. -/
def packW : List ℤ → Except PackWError (List UInt8)
  | [] => .ok []
  | x :: xs => do
    let b ← packWItem x
    let r ← packW xs
    pure (b ++ r)

/-- The `'w'` loop of `pack_unpack_internal`, `run` being the bytes from `s0` to `s`: a byte
without the high bit ends an item, which `rb_integer_unpack(s0, s - s0, 1, 1,
INTEGER_PACK_BIG_ENDIAN)` reads. Bytes after the last item are not read. -/
def unpackWLoop : ℕ → List UInt8 → List UInt8 → List ℤ
  | 0, _, _ => []
  | _ + 1, _, [] => []
  | len + 1, run, c :: s =>
    if c &&& 0x80 ≠ 0 then unpackWLoop (len + 1) (run ++ [c]) s
    else rbIntegerUnpack (run ++ [c]) (run.length + 1) 1 1 true true :: unpackWLoop len [] s

/-- `unpack('w*')`: the count `*` is `send - s`. -/
def unpackW (bs : List UInt8) : List ℤ := unpackWLoop bs.length [] bs

/-! ## The continuation bit -/

/-- `b & 0x80` tests the bit of 128. -/
theorem and_0x80_ne_zero_iff (b : UInt8) : b &&& 0x80 ≠ 0 ↔ 128 ≤ b.toNat := by
  have hb := b.toNat_lt
  have hand : (b &&& 0x80).toNat = b.toNat / 128 % 2 * 128 := by
    rw [UInt8.toNat_and, show (0x80 : UInt8).toNat = 2 ^ 7 from rfl, Nat.and_two_pow,
      Nat.testBit_eq_decide_div_mod_eq]
    rcases Nat.mod_two_eq_zero_or_one (b.toNat / 128) with h | h <;> simp [h]
  rw [ne_eq, ← UInt8.toNat_inj, hand, UInt8.toNat_zero]
  omega

/-- `b | 0x80` adds 128 to a byte below 128. -/
theorem toNat_or_0x80 {b : UInt8} (hb : b.toNat < 128) : (b ||| 0x80).toNat = b.toNat + 128 := by
  rw [UInt8.toNat_or, show (0x80 : UInt8).toNat = 2 ^ 7 from rfl,
    Nat.or_two_pow_eq_add_of_lt hb]

/-- The digits of an item, most significant first, as bytes. -/
def berDigits (m n : ℕ) : List UInt8 := ((chunks 7 m n).map UInt8.ofNat).reverse

theorem berDigits_lt (m n : ℕ) : ∀ b ∈ berDigits m n, b.toNat < 128 := by
  intro b hb
  obtain ⟨c, hc, rfl⟩ := List.mem_map.mp (List.mem_reverse.mp hb)
  have := chunks_lt 7 m n c hc
  rw [UInt8.toNat_ofNat', Nat.mod_eq_of_lt (by omega)]
  exact this

theorem length_berDigits (m n : ℕ) : (berDigits m n).length = m := by
  simp [berDigits, length_chunks]

/-- The continuation bits do not change the low seven bits of a byte below 128. -/
theorem map_mod_berMark (bs : List UInt8) (hbs : ∀ b ∈ bs, b.toNat < 128) :
    (berMark bs).map (fun b => b.toNat % 2 ^ 7) = bs.map UInt8.toNat := by
  induction bs using berMark.induct with
  | case1 b c bs ih =>
    have hb := hbs b (by simp)
    have hhead : (b ||| 0x80).toNat % 2 ^ 7 = b.toNat := by rw [toNat_or_0x80 hb]; omega
    rw [berMark, List.map_cons, hhead, ih (fun x hx => hbs x (List.mem_cons_of_mem _ hx))]
    simp only [List.map_cons]
  | case2 bs hbs' =>
    rw [berMark.eq_2 bs hbs']
    refine List.map_congr_left fun b hb => ?_
    have := hbs b hb
    omega

theorem length_berMark (bs : List UInt8) : (berMark bs).length = bs.length := by
  induction bs using berMark.induct with
  | case1 b c bs ih => simp [berMark, ih]
  | case2 bs h => rw [berMark.eq_2 bs h]

/-! ## `pack('w')` -/

/-- The words `pack('w')` asks for: `⌈size |x| / 7⌉`, at least one. -/
def berLength (x : ℤ) : ℕ := if rbAbsintNumwords x 7 = 0 then 1 else rbAbsintNumwords x 7

theorem berLength_pos (x : ℤ) : 0 < berLength x := by
  unfold berLength
  split_ifs with h <;> omega

/-- `|x|` fits the words asked for. -/
theorem natAbs_lt_berLength (x : ℤ) : x.natAbs < 2 ^ (7 * berLength x) := by
  have hsize := Nat.lt_size_self x.natAbs
  have hwords := rbAbsintNumwords_eq x (show 0 < 7 by norm_num)
  have hroom : x.natAbs.size ≤ 7 * berLength x := by
    unfold berLength
    rw [hwords]
    split_ifs <;> omega
  exact lt_of_lt_of_le hsize (Nat.pow_le_pow_right (by norm_num) hroom)

/-- `pack('w')` of one item, through the words it asks for. -/
theorem packWItem_eq (x : ℤ) :
    packWItem x =
      if (rbIntegerPack x (berLength x) 1 1 true true).1 < 0 then .error (.argumentError negativeMsg)
      else if (rbIntegerPack x (berLength x) 1 1 true true).1 = 2 then
        .error (.bug "buffer size problem?")
      else .ok (berMark (rbIntegerPack x (berLength x) 1 1 true true).2) := rfl

/-- **A negative number** raises `ArgumentError`, whether or not it fits. -/
theorem packWItem_of_neg {x : ℤ} (hx : x < 0) : packWItem x = .error (.argumentError negativeMsg) := by
  have hsign : (rbIntegerPack x (berLength x) 1 1 true true).1 < 0 := by
    rw [rbIntegerPack_bytes x (berLength_pos x) (by norm_num) (by norm_num)]
    simp only [if_neg hx.ne, if_pos hx]
    split_ifs <;> norm_num
  rw [packWItem_eq, if_pos hsign]

/-- **A non-negative number** is written as its base-128 digits, most significant first, with the
continuation bits. -/
theorem packWItem_of_nonneg {x : ℤ} (hx : 0 ≤ x) :
    packWItem x = .ok (berMark (berDigits (berLength x) x.natAbs)) := by
  have hfit := natAbs_lt_berLength x
  have hpack := rbIntegerPack_bytes x (berLength_pos x) (show 0 < 1 by norm_num)
    (show 1 < 8 by norm_num)
  rw [if_pos (show x.natAbs < 2 ^ ((8 - 1) * berLength x) from hfit), if_neg (not_lt.mpr hx)]
    at hpack
  -- the sign is 0 or 1
  have hsign : ¬(rbIntegerPack x (berLength x) 1 1 true true).1 < 0 := by
    rw [hpack]
    split_ifs <;> norm_num
  have hbug : (rbIntegerPack x (berLength x) 1 1 true true).1 ≠ 2 := by
    rw [hpack]
    split_ifs <;> norm_num
  rw [packWItem_eq, if_neg hsign, if_neg hbug, hpack, berDigits]

/-! ## `unpack('w')` -/

/-- The continuation bytes of an item go into the run, and its last byte ends the item. -/
theorem unpackWLoop_berMark (len : ℕ) (rest : List UInt8) :
    ∀ (bs run : List UInt8), bs ≠ [] → (∀ b ∈ bs, b.toNat < 128) →
      unpackWLoop (len + 1) run (berMark bs ++ rest) =
        rbIntegerUnpack (run ++ berMark bs) (run.length + bs.length) 1 1 true true ::
          unpackWLoop len [] rest := by
  intro bs
  induction bs using berMark.induct with
  | case1 b c bs ih =>
    intro run _ hbs
    have hb := hbs b (by simp)
    have hcont : (b ||| 0x80) &&& 0x80 ≠ 0 := by
      rw [and_0x80_ne_zero_iff, toNat_or_0x80 hb]
      omega
    have hmark : berMark (b :: c :: bs) = (b ||| 0x80) :: berMark (c :: bs) := by rw [berMark]
    have hlen : (run ++ [b ||| 0x80]).length + (c :: bs).length =
        run.length + (b :: c :: bs).length := by
      simp only [List.length_append, List.length_cons, List.length_nil]
      omega
    rw [hmark, List.cons_append, unpackWLoop, if_pos hcont,
      ih (run ++ [b ||| 0x80]) (List.cons_ne_nil _ _)
        (fun x hx => hbs x (List.mem_cons_of_mem _ hx)),
      hlen, List.append_assoc, List.singleton_append]
  | case2 bs hbs' =>
    intro run hne hbs
    rw [berMark.eq_2 bs hbs']
    -- a single byte
    obtain ⟨c, rfl⟩ : ∃ c, bs = [c] := by
      rcases bs with _ | ⟨c, _ | ⟨d, bs⟩⟩
      · exact absurd rfl hne
      · exact ⟨c, rfl⟩
      · exact absurd rfl (hbs' c d bs)
    have hend : ¬c &&& 0x80 ≠ 0 := by
      rw [and_0x80_ne_zero_iff]
      have := hbs c (by simp)
      omega
    rw [List.singleton_append, unpackWLoop, if_neg hend]
    rfl

/-- **An item read back**: the low seven bits of its bytes are its base-128 digits. -/
theorem rbIntegerUnpack_berMark (x : ℤ) (hx : 0 ≤ x) :
    rbIntegerUnpack (berMark (berDigits (berLength x) x.natAbs))
      (berDigits (berLength x) x.natAbs).length 1 1 true true = x := by
  have hne : berMark (berDigits (berLength x) x.natAbs) ≠ [] := by
    rw [← List.length_pos_iff, length_berMark, length_berDigits]
    exact berLength_pos x
  have hunpack := rbIntegerUnpack_bytes hne (show 0 < 1 by norm_num) (show 1 < 8 by norm_num)
  rw [length_berMark] at hunpack
  rw [hunpack, List.map_reverse, map_mod_berMark _ (berDigits_lt _ _)]
  -- the digits are those `chunks` made
  have hdig : (berDigits (berLength x) x.natAbs).map UInt8.toNat = (chunks 7 (berLength x) x.natAbs).reverse := by
    rw [berDigits, List.map_reverse, List.map_map]
    congr 1
    refine (List.map_congr_left fun c hc => ?_).trans (List.map_id _)
    have := chunks_lt 7 _ _ c hc
    simp only [Function.comp_apply, UInt8.toNat_ofNat', id]
    exact Nat.mod_eq_of_lt (by omega)
  rw [hdig, List.reverse_reverse, show 8 - 1 = 7 from rfl, ofDigits_chunks,
    Nat.mod_eq_of_lt (natAbs_lt_berLength x)]
  omega

/-! ## The round trip -/

/-- **`pack('w*')`** of non-negative numbers is each number's item in turn. -/
theorem packW_of_nonneg (xs : List ℤ) (hxs : ∀ x ∈ xs, 0 ≤ x) :
    packW xs = .ok (xs.flatMap fun x => berMark (berDigits (berLength x) x.natAbs)) := by
  induction xs with
  | nil => rfl
  | cons x xs ih =>
    rw [packW, packWItem_of_nonneg (hxs x (by simp)),
      ih (fun y hy => hxs y (List.mem_cons_of_mem _ hy))]
    rfl

/-- **`unpack('w*')`** reads the items back, one per byte without the high bit, for any count at
least the number of bytes left. -/
theorem unpackWLoop_items (xs : List ℤ) (hxs : ∀ x ∈ xs, 0 ≤ x) :
    ∀ len, (xs.flatMap fun x => berMark (berDigits (berLength x) x.natAbs)).length ≤ len →
      unpackWLoop len [] (xs.flatMap fun x => berMark (berDigits (berLength x) x.natAbs)) = xs := by
  induction xs with
  | nil =>
    intro len _
    cases len <;> rfl
  | cons x xs ih =>
    intro len hlen
    have hx := hxs x (by simp)
    have hpos : 0 < (berMark (berDigits (berLength x) x.natAbs)).length := by
      rw [length_berMark, length_berDigits]
      exact berLength_pos x
    rw [List.flatMap_cons, List.length_append] at hlen
    obtain ⟨len, rfl⟩ : ∃ l, len = l + 1 := ⟨len - 1, by omega⟩
    have hne : berDigits (berLength x) x.natAbs ≠ [] := by
      rw [← List.length_pos_iff, length_berDigits]
      exact berLength_pos x
    rw [List.flatMap_cons, unpackWLoop_berMark len _ _ [] hne (berDigits_lt _ _), List.nil_append,
      List.length_nil, Nat.zero_add, rbIntegerUnpack_berMark x hx,
      ih (fun y hy => hxs y (List.mem_cons_of_mem _ hy)) len (by omega)]

/-- **`unpack('w*')` inverts `pack('w*')`** on every list of non-negative integers, and
`pack('w')` raises `ArgumentError` on a list with a negative number. -/
theorem unpack_w_pack_w :
    (∀ xs : List ℤ, (∀ x ∈ xs, 0 ≤ x) → ∃ bs, packW xs = .ok bs ∧ unpackW bs = xs) ∧
      ∀ xs : List ℤ, (∃ x ∈ xs, x < 0) → packW xs = .error (.argumentError negativeMsg) := by
  refine ⟨fun xs hxs => ⟨_, packW_of_nonneg xs hxs, unpackWLoop_items xs hxs _ (Nat.le_refl _)⟩, ?_⟩
  intro xs
  induction xs with
  | nil => simp
  | cons x xs ih =>
    rintro ⟨y, hy, hneg⟩
    by_cases hx : x < 0
    · rw [packW, packWItem_of_neg hx]
      rfl
    · -- `x` is written, and the negative number is further on
      have hy' : y ∈ xs := by
        rcases List.mem_cons.mp hy with rfl | hy'
        · exact absurd hneg hx
        · exact hy'
      rw [packW, packWItem_of_nonneg (by omega), ih ⟨y, hy', hneg⟩]
      rfl

end CRuby.Pack
