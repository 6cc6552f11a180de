import CRuby.Lib.BitFields
import CRuby.Lib.ByteWord
import Mathlib.Tactic.IntervalCases

/-!
# `pack('U')` and `unpack('U')`: UTF-8 of up to six bytes

`rbUvToUtf8` is `rb_uv_to_utf8` of `pack.c`, which writes a value below `2 ^ 31` in the original
UTF-8 of up to six bytes, and `utf8ToUv` is `utf8_to_uv`, which reads one such character from a
buffer of `*lenp` bytes and raises `ArgumentError` on anything else. `utf8_to_uv` is only called
on a non-empty buffer (the `'U'` loop of `pack_unpack_internal` runs while `s < send`), so its
input here is the first byte and the bytes after it.

The two agree on every value (`utf8ToUv_rbUvToUtf8`), and the decoder returns exactly on the
encodings (`rbUvToUtf8_of_utf8ToUv`). In between stands the arithmetic reading of both: a
character of `n ≥ 2` bytes is a lead byte with a tag of `n` ones and the value's bits above its
last `n - 1` base-64 digits, followed by one `10xxxxxx` byte per digit (`utf8Seq`). `utf8_limits`
rules out the overlong forms, so the length of a decoded value is again `n`.
-/

namespace CRuby.Pack

/-! ## The encoder -/

/-- `castchar(((uv >> shift) & mask) | tag)`: one byte of `rb_uv_to_utf8` (`castchar` keeps the
low eight bits). -/
def utf8Byte (uv shift mask tag : ℕ) : UInt8 := UInt8.ofNat (((uv >>> shift) &&& mask) ||| tag)

/-- `rb_uv_to_utf8(buf, uv)`: the bytes written to `buf`, or the `RangeError`. -/
def rbUvToUtf8 (uv : ℕ) : Except String (List UInt8) :=
  if uv ≤ 0x7f then .ok [UInt8.ofNat uv]
  else if uv ≤ 0x7ff then .ok [utf8Byte uv 6 0xff 0xc0, utf8Byte uv 0 0x3f 0x80]
  else if uv ≤ 0xffff then
    .ok [utf8Byte uv 12 0xff 0xe0, utf8Byte uv 6 0x3f 0x80, utf8Byte uv 0 0x3f 0x80]
  else if uv ≤ 0x1fffff then
    .ok [utf8Byte uv 18 0xff 0xf0, utf8Byte uv 12 0x3f 0x80, utf8Byte uv 6 0x3f 0x80,
      utf8Byte uv 0 0x3f 0x80]
  else if uv ≤ 0x3ffffff then
    .ok [utf8Byte uv 24 0xff 0xf8, utf8Byte uv 18 0x3f 0x80, utf8Byte uv 12 0x3f 0x80,
      utf8Byte uv 6 0x3f 0x80, utf8Byte uv 0 0x3f 0x80]
  else if uv ≤ 0x7fffffff then
    .ok [utf8Byte uv 30 0xff 0xfc, utf8Byte uv 24 0x3f 0x80, utf8Byte uv 18 0x3f 0x80,
      utf8Byte uv 12 0x3f 0x80, utf8Byte uv 6 0x3f 0x80, utf8Byte uv 0 0x3f 0x80]
  else .error "pack(U): value out of range"

/-! ## The decoder -/

/-- `utf8_limits[n]`: the least value that needs `n + 1` bytes. -/
def utf8Limits : List ℕ := [0x0, 0x80, 0x800, 0x10000, 0x200000, 0x4000000, 0x80000000]

/-- An `rb_raise(rb_eArgError, ..)` of `utf8_to_uv`: its message and `*lenp` when it raises. -/
structure Utf8Raise where
  msg : String
  lenp : ℕ
  deriving DecidableEq, Repr

def malformedMsg : String := "malformed UTF-8 character"

def expectedMsg (n given : ℕ) : String :=
  "malformed UTF-8 character (expected " ++ toString n ++ " bytes, given " ++ toString given ++
    " bytes)"

def redundantMsg : String := "redundant UTF-8 sequence"

/-- The `if .. else if` chain on the lead byte's high bits: the length `n` and `uv &= mask`. -/
def utf8Lead (uv : ℕ) : Option (ℕ × ℕ) :=
  if uv &&& 0x20 = 0 then some (2, uv &&& 0x1f)
  else if uv &&& 0x10 = 0 then some (3, uv &&& 0x0f)
  else if uv &&& 0x08 = 0 then some (4, uv &&& 0x07)
  else if uv &&& 0x04 = 0 then some (5, uv &&& 0x03)
  else if uv &&& 0x02 = 0 then some (6, uv &&& 0x01)
  else none

/-- The `while (n--)` loop over the continuation bytes: `uv = uv << 6 | (c & 0x3f)` for each,
or `.error n` with the count `n` still to come when a byte is not `10xxxxxx`. -/
def utf8Cont : (n uv : ℕ) → List UInt8 → Except ℕ ℕ
  | 0, uv, _ => .ok uv
  | n + 1, uv, bs =>
    let c := (bs.headD 0).toNat
    if c &&& 0xc0 ≠ 0x80 then .error n
    else utf8Cont n (uv <<< 6 ||| (c &&& 0x3f)) bs.tail

/-- `utf8_to_uv(p, lenp)` on the byte `c` at `p` and the `rest` of the `*lenp` bytes: the value
and `*lenp` afterwards, or the `ArgumentError`. -/
def utf8ToUv (c : UInt8) (rest : List UInt8) : Except Utf8Raise (ℕ × ℕ) :=
  let uv := c.toNat
  let lenp := rest.length + 1
  if uv &&& 0x80 = 0 then .ok (uv, 1)
  else if uv &&& 0x40 = 0 then .error ⟨malformedMsg, 1⟩
  else
    match utf8Lead uv with
    | none => .error ⟨malformedMsg, 1⟩
    | some (n, uv) =>
      if n > lenp then .error ⟨expectedMsg n lenp, lenp⟩
      else
        match utf8Cont (n - 1) uv rest with
        -- `*lenp -= n + 1`: the bytes read before the bad one
        | .error m => .error ⟨malformedMsg, n - (m + 1)⟩
        | .ok uv => if uv < utf8Limits.getD (n - 1) 0 then .error ⟨redundantMsg, n⟩ else .ok (uv, n)

/-! ## The `'U'` directives -/

/-- The `'U'` case of `pack_pack` with the count `*`: every remaining item, each a `long` after
`NUM2LONG`, written by `rb_uv_to_utf8`. -/
def packU : List ℤ → Except String (List UInt8)
  | [] => .ok []
  | l :: items =>
    if l < 0 then .error "pack(U): value out of range"
    else do
      let buf ← rbUvToUtf8 l.toNat
      let rest ← packU items
      pure (buf ++ rest)

/-- The `'U'` loop of `pack_unpack_internal`: `while (len > 0 && s < send)`, one character by
`utf8_to_uv` with `alen = send - s`, then `s += alen; len--`. -/
def unpackUtf8Loop : (len : ℕ) → List UInt8 → Except Utf8Raise (List ℕ)
  | 0, _ => .ok []
  | _ + 1, [] => .ok []
  | len + 1, c :: rest => do
    let (l, alen) ← utf8ToUv c rest
    let items ← unpackUtf8Loop len (rest.drop (alen - 1))
    pure (l :: items)

/-- `unpack('U*')`: the count `*` is `send - s`. -/
def unpackUtf8 (bs : List UInt8) : Except Utf8Raise (List ℕ) := unpackUtf8Loop bs.length bs

/-! ## Values as base-64 digits -/

/-- Horner's rule in base 64: `uv = uv << 6 | d` over the digits `ds`. -/
def horner (acc : ℕ) (ds : List ℕ) : ℕ := ds.foldl (fun a d => a * 64 + d) acc

/-- The last `m` base-64 digits of `uv`, most significant first. -/
def digits64 (uv : ℕ) : ℕ → List ℕ
  | 0 => []
  | m + 1 => uv / 64 ^ m % 64 :: digits64 uv m

theorem horner_cons (acc d : ℕ) (ds : List ℕ) :
    horner acc (d :: ds) = horner (acc * 64 + d) ds := rfl

theorem length_digits64 (uv m : ℕ) : (digits64 uv m).length = m := by
  induction m with
  | zero => rfl
  | succ m ih => rw [digits64, List.length_cons, ih]

theorem digits64_lt (uv m : ℕ) : ∀ d ∈ digits64 uv m, d < 64 := by
  induction m with
  | zero => intro d hd; cases hd
  | succ m ih =>
    intro d hd
    rcases List.mem_cons.mp hd with rfl | hd
    · exact Nat.mod_lt _ (by decide)
    · exact ih d hd

/-- The value is its digits below `64 ^ m` read after its part above. -/
theorem horner_digits64 (uv m : ℕ) : horner (uv / 64 ^ m) (digits64 uv m) = uv := by
  induction m with
  | zero => simp [horner, digits64]
  | succ m ih =>
    rw [digits64, horner_cons, pow_succ, ← Nat.div_div_eq_div_mul, Nat.div_add_mod', ih]

theorem horner_lt (acc : ℕ) {ds : List ℕ} (hds : ∀ d ∈ ds, d < 64) :
    horner acc ds < (acc + 1) * 64 ^ ds.length := by
  induction ds generalizing acc with
  | nil => simp [horner]
  | cons d ds ih =>
    have hd := hds d (List.mem_cons_self ..)
    have hrest := ih (acc * 64 + d) (fun e he => hds e (List.mem_cons_of_mem _ he))
    rw [horner_cons, List.length_cons, pow_succ]
    calc horner (acc * 64 + d) ds < (acc * 64 + d + 1) * 64 ^ ds.length := hrest
      _ ≤ (acc + 1) * 64 * 64 ^ ds.length := Nat.mul_le_mul_right _ (by omega)
      _ = (acc + 1) * (64 ^ ds.length * 64) := by rw [Nat.mul_assoc, Nat.mul_comm 64]

/-- Reading digits with Horner's rule and taking them apart again gives them back. -/
theorem digits64_horner {ds : List ℕ} (hds : ∀ d ∈ ds, d < 64) (acc : ℕ) :
    digits64 (horner acc ds) ds.length = ds ∧ horner acc ds / 64 ^ ds.length = acc := by
  induction ds generalizing acc with
  | nil => simp [horner, digits64]
  | cons d ds ih =>
    have hd := hds d (List.mem_cons_self ..)
    obtain ⟨hdig, hdiv⟩ := ih (fun e he => hds e (List.mem_cons_of_mem _ he)) (acc * 64 + d)
    rw [horner_cons, List.length_cons, digits64, hdig, hdiv, pow_succ, ← Nat.div_div_eq_div_mul,
      hdiv]
    exact ⟨by congr 1; omega, by omega⟩

/-! ## Bytes -/

/-- The tag of the lead byte of a character of `n` bytes: `n` ones, then a zero. -/
def leadTag (n : ℕ) : ℕ := 0x100 - 2 ^ (8 - n)

/-- A continuation byte `10xxxxxx` is `0x80` plus its low six bits. -/
theorem contByte_spec : ∀ b : UInt8, b.toNat &&& 0xc0 = 0x80 →
    b.toNat &&& 0x3f < 64 ∧ b = UInt8.ofNat (0x80 + (b.toNat &&& 0x3f)) := by
  set_option maxRecDepth 4096 in
  exact ByteWord.uint8_forall (by decide)

theorem toNat_contByte {d : ℕ} (hd : d < 64) : (UInt8.ofNat (0x80 + d)).toNat = 0x80 + d := by
  rw [UInt8.toNat_ofNat', Nat.mod_eq_of_lt (by omega)]

theorem contByte_bits : ∀ d < 64, (0x80 + d) &&& 0xc0 = 0x80 ∧ (0x80 + d) &&& 0x3f = d := by
  decide

/-- What the `if .. else if` chain reads from a lead byte `11xxxxxx`: a length `n` from 2 to 6
and the bits below the tag. -/
theorem utf8Lead_spec : ∀ c < 256, c &&& 0x80 ≠ 0 → c &&& 0x40 ≠ 0 →
    (utf8Lead c).all (fun p => 2 ≤ p.1 ∧ p.1 ≤ 6 ∧ p.2 < 2 ^ (7 - p.1) ∧ c = leadTag p.1 + p.2) := by
  set_option maxRecDepth 4096 in
  decide

/-- A lead byte of every length is a byte with its two high bits set. -/
theorem leadTag_add_bits : ∀ n < 7, 2 ≤ n → ∀ q < 2 ^ (7 - n),
    leadTag n + q < 256 ∧ (leadTag n + q) &&& 0x80 ≠ 0 ∧ (leadTag n + q) &&& 0x40 ≠ 0 := by
  decide

/-- A lead byte of every length is read back as such. -/
theorem utf8Lead_leadTag : ∀ n < 7, 2 ≤ n → ∀ q < 2 ^ (7 - n),
    utf8Lead (leadTag n + q) = some (n, q) := by
  decide

/-! ## The encoder writes `utf8Seq` -/

/-- The number of bytes `rb_uv_to_utf8` writes for `uv`. -/
def utf8Len (uv : ℕ) : ℕ :=
  if uv < 0x80 then 1 else if uv < 0x800 then 2 else if uv < 0x10000 then 3
  else if uv < 0x200000 then 4 else if uv < 0x4000000 then 5 else 6

/-- The character of `n ≥ 2` bytes for `uv`, as numbers: the tagged lead byte with the bits above
the last `n - 1` base-64 digits, and a continuation byte for each digit. -/
def utf8Seq (n uv : ℕ) : List ℕ :=
  (leadTag n + uv / 64 ^ (n - 1)) :: (digits64 uv (n - 1)).map (0x80 + ·)

theorem utf8Byte_cont (uv s : ℕ) :
    utf8Byte uv s 0x3f 0x80 = UInt8.ofNat (0x80 + uv / 2 ^ s % 64) := by
  rw [utf8Byte, Nat.shiftRight_eq_div_pow, show (0x3f : ℕ) = 2 ^ 6 - 1 from rfl,
    Nat.and_two_pow_sub_one_eq_mod, Nat.lor_comm,
    BitFields.or_eq_add_of_lt 6 (by decide) (Nat.mod_lt _ (by decide))]
  rfl

theorem utf8Byte_lead (uv s tag : ℕ) {k : ℕ} (hq : uv / 2 ^ s < 2 ^ k) (hk : k ≤ 8)
    (htag : tag % 2 ^ k = 0) : utf8Byte uv s 0xff tag = UInt8.ofNat (tag + uv / 2 ^ s) := by
  have h8 : uv / 2 ^ s < 2 ^ 8 := lt_of_lt_of_le hq (Nat.pow_le_pow_right (by decide) hk)
  rw [utf8Byte, Nat.shiftRight_eq_div_pow, show (0xff : ℕ) = 2 ^ 8 - 1 from rfl,
    Nat.and_two_pow_sub_one_eq_mod, Nat.mod_eq_of_lt h8, Nat.lor_comm,
    BitFields.or_eq_add_of_lt k htag hq]

/-- `rb_uv_to_utf8` writes `utf8Seq` for every value of two to six bytes. -/
theorem rbUvToUtf8_eq {uv : ℕ} (h1 : 0x80 ≤ uv) (h2 : uv < 2 ^ 31) :
    rbUvToUtf8 uv = .ok ((utf8Seq (utf8Len uv) uv).map UInt8.ofNat) := by
  unfold rbUvToUtf8 utf8Len
  simp only [utf8Byte_cont]
  split_ifs <;> first | omega | skip
  · rw [utf8Byte_lead uv 6 0xc0 (k := 5) (by omega) (by decide) (by decide)]
    rfl
  · rw [utf8Byte_lead uv 12 0xe0 (k := 4) (by omega) (by decide) (by decide)]
    rfl
  · rw [utf8Byte_lead uv 18 0xf0 (k := 3) (by omega) (by decide) (by decide)]
    rfl
  · rw [utf8Byte_lead uv 24 0xf8 (k := 2) (by omega) (by decide) (by decide)]
    rfl
  · rw [utf8Byte_lead uv 30 0xfc (k := 1) (by omega) (by decide) (by decide)]
    rfl

/-- The lengths and their bounds: a value of `n` bytes lies in `[utf8_limits[n - 1], utf8_limits[n])`,
and `utf8_limits[n]` is `2 ^ (7 - n) * 64 ^ (n - 1)`, the values a lead byte and `n - 1`
continuation bytes can hold. -/
theorem utf8Len_bounds {uv : ℕ} (h1 : 0x80 ≤ uv) (h2 : uv < 2 ^ 31) :
    2 ≤ utf8Len uv ∧ utf8Len uv ≤ 6 ∧ utf8Limits.getD (utf8Len uv - 1) 0 ≤ uv ∧
      uv < 2 ^ (7 - utf8Len uv) * 64 ^ (utf8Len uv - 1) := by
  unfold utf8Len
  split_ifs <;> simp only [utf8Limits, Nat.reduceSub, List.getD_cons_succ, List.getD_cons_zero] <;>
    omega

theorem utf8Len_eq {n v : ℕ} (hn2 : 2 ≤ n) (hn6 : n ≤ 6) (hlo : utf8Limits.getD (n - 1) 0 ≤ v)
    (hhi : v < 2 ^ (7 - n) * 64 ^ (n - 1)) : utf8Len v = n := by
  interval_cases n <;>
    simp only [utf8Len, utf8Limits, Nat.reduceSub, List.getD_cons_succ, List.getD_cons_zero] at * <;>
    split_ifs <;> omega

/-! ## The continuation loop -/

/-- The loop reads continuation bytes as base-64 digits. -/
theorem utf8Cont_ok {ds : List ℕ} (hds : ∀ d ∈ ds, d < 64) (acc : ℕ) (rest : List UInt8) :
    utf8Cont ds.length acc (ds.map (fun d => UInt8.ofNat (0x80 + d)) ++ rest) =
      .ok (horner acc ds) := by
  induction ds generalizing acc with
  | nil => rfl
  | cons d ds ih =>
    have hd := hds d (List.mem_cons_self ..)
    obtain ⟨htag, hlow⟩ := contByte_bits d hd
    simp only [List.length_cons, List.map_cons, List.cons_append, utf8Cont, List.headD_cons,
      List.tail_cons, toNat_contByte hd, htag, hlow, ne_eq, not_true_eq_false, if_false]
    rw [Nat.shiftLeft_eq, BitFields.or_eq_add_of_lt 6 (Nat.mul_mod_left _ _) hd,
      ih (fun e he => hds e (List.mem_cons_of_mem _ he))]
    rfl

/-- When the loop returns, it has read `m` continuation bytes, and its value is theirs. -/
theorem utf8Cont_eq_ok {m acc v : ℕ} {bs : List UInt8} (h : utf8Cont m acc bs = .ok v) :
    ∃ ds : List ℕ, ds.length = m ∧ (∀ d ∈ ds, d < 64) ∧
      bs = ds.map (fun d => UInt8.ofNat (0x80 + d)) ++ bs.drop m ∧ v = horner acc ds := by
  induction m generalizing acc bs with
  | zero =>
    cases h
    exact ⟨[], rfl, (fun d hd => by cases hd), rfl, rfl⟩
  | succ m ih =>
    simp only [utf8Cont] at h
    split at h
    · cases h
    case isFalse hc =>
      -- an empty buffer reads as `0`, which is not a continuation byte
      obtain ⟨b, bs, rfl⟩ : ∃ b bs', bs = b :: bs' := by
        cases bs with
        | nil => exact absurd hc (by decide)
        | cons b bs' => exact ⟨b, bs', rfl⟩
      simp only [List.headD_cons, List.tail_cons, ne_eq, Decidable.not_not] at hc h
      obtain ⟨hd, hb⟩ := contByte_spec b hc
      obtain ⟨ds, hlen, hds, hrest, hv⟩ := ih h
      refine ⟨(b.toNat &&& 0x3f) :: ds, by rw [List.length_cons, hlen], ?_, ?_, ?_⟩
      · intro d hd'
        rcases List.mem_cons.mp hd' with rfl | hd'
        · exact hd
        · exact hds d hd'
      · rw [List.map_cons, List.cons_append, List.drop_succ_cons, ← hrest, ← hb]
      · rw [hv, horner_cons, Nat.shiftLeft_eq, BitFields.or_eq_add_of_lt 6 (Nat.mul_mod_left _ _) hd]
        rfl

/-! ## The decoder reads exactly the encodings -/

/-- The encoding of a value of `n ≥ 2` bytes in the shape the decoder reads: the lead byte, then
a continuation byte per digit. -/
theorem map_utf8Seq (n uv : ℕ) :
    (utf8Seq n uv).map UInt8.ofNat =
      UInt8.ofNat (leadTag n + uv / 64 ^ (n - 1)) ::
        (digits64 uv (n - 1)).map (fun d => UInt8.ofNat (0x80 + d)) := by
  simp [utf8Seq, Function.comp_def]

theorem ascii_bits : ∀ b : UInt8, b.toNat &&& 0x80 = 0 ↔ b.toNat < 0x80 := by
  set_option maxRecDepth 4096 in
  exact ByteWord.uint8_forall (by decide)

theorem utf8Limit_le : ∀ n < 7, 2 ^ (7 - n) * 64 ^ (n - 1) ≤ 2 ^ 31 := by
  decide

/-- **`utf8_to_uv` reads back what `rb_uv_to_utf8` writes**, with `*lenp` its length, whatever
bytes follow it. -/
theorem utf8ToUv_rbUvToUtf8 {uv : ℕ} (huv : uv < 2 ^ 31) :
    ∃ c cs, rbUvToUtf8 uv = .ok (c :: cs) ∧
      ∀ rest, utf8ToUv c (cs ++ rest) = .ok (uv, cs.length + 1) := by
  by_cases h1 : uv < 0x80
  · -- one byte, read as itself
    have hbyte : (UInt8.ofNat uv).toNat = uv := by
      rw [UInt8.toNat_ofNat', Nat.mod_eq_of_lt (by omega)]
    have hbit := (ascii_bits (UInt8.ofNat uv)).mpr (by rw [hbyte]; exact h1)
    refine ⟨UInt8.ofNat uv, [], by rw [rbUvToUtf8, if_pos (by omega)], fun rest => ?_⟩
    rw [utf8ToUv, if_pos hbit, hbyte]
    rfl
  · obtain ⟨hn2, hn6, hlo, hhi⟩ := utf8Len_bounds (by omega) huv
    set n := utf8Len uv
    -- the bits above the digits fit below the lead byte's tag
    have hq : uv / 64 ^ (n - 1) < 2 ^ (7 - n) := Nat.div_lt_of_lt_mul (by rwa [Nat.mul_comm])
    obtain ⟨hlt, hb80, hb40⟩ := leadTag_add_bits n (by omega) hn2 _ hq
    have hlead : (UInt8.ofNat (leadTag n + uv / 64 ^ (n - 1))).toNat = leadTag n + uv / 64 ^ (n - 1) := by
      rw [UInt8.toNat_ofNat', Nat.mod_eq_of_lt hlt]
    refine ⟨_, _, (rbUvToUtf8_eq (by omega) huv).trans (congrArg _ (map_utf8Seq n uv)),
      fun rest => ?_⟩
    have hcont := utf8Cont_ok (digits64_lt uv (n - 1)) (uv / 64 ^ (n - 1)) rest
    rw [length_digits64, horner_digits64] at hcont
    have hlen : ((digits64 uv (n - 1)).map (fun d => UInt8.ofNat (0x80 + d))).length + 1 = n := by
      rw [List.length_map, length_digits64]
      omega
    rw [utf8ToUv, hlead, if_neg hb80, if_neg hb40, utf8Lead_leadTag n (by omega) hn2 _ hq]
    simp only [List.length_append, hlen]
    rw [if_neg (by omega), hcont]
    exact if_neg (not_lt.mpr hlo)

/-- **`utf8_to_uv` returns only on an encoding**: when it returns a value and a length, the
bytes it read are what `rb_uv_to_utf8` writes for that value. -/
theorem rbUvToUtf8_of_utf8ToUv {c : UInt8} {rest : List UInt8} {uv n : ℕ}
    (h : utf8ToUv c rest = .ok (uv, n)) :
    uv < 2 ^ 31 ∧ ∃ cs rest', rbUvToUtf8 uv = .ok (c :: cs) ∧ rest = cs ++ rest' ∧
      n = cs.length + 1 := by
  simp only [utf8ToUv] at h
  split_ifs at h with h80 h40
  · -- one byte
    cases h
    have hc := (ascii_bits c).mp h80
    refine ⟨by omega, [], rest, ?_, rfl, rfl⟩
    rw [rbUvToUtf8, if_pos (by omega), UInt8.ofNat_toNat]
  split at h
  · cases h
  next n0 q hlead =>
    have hspec := utf8Lead_spec c.toNat c.toNat_lt h80 h40
    rw [hlead] at hspec
    simp only [Option.all_some, decide_eq_true_eq] at hspec
    obtain ⟨hn2, hn6, hq, hc⟩ := hspec
    split_ifs at h with hlen
    split at h
    · cases h
    next v hcont =>
      split_ifs at h with hred
      cases h
      obtain ⟨ds, hdlen, hds, hrest, hv⟩ := utf8Cont_eq_ok hcont
      obtain ⟨hdig, hdiv⟩ := digits64_horner hds q
      -- the decoded value lies in the range of its length
      have hhi : uv < 2 ^ (7 - n) * 64 ^ (n - 1) := by
        calc uv < (q + 1) * 64 ^ ds.length := hv ▸ horner_lt q hds
          _ ≤ 2 ^ (7 - n) * 64 ^ (n - 1) := by rw [hdlen]; exact Nat.mul_le_mul_right _ hq
      have hlen_eq := utf8Len_eq hn2 hn6 (not_lt.mp hred) hhi
      have h31 := lt_of_lt_of_le hhi (utf8Limit_le n (by omega))
      have hlo : 0x80 ≤ uv := by
        have := not_lt.mp hred
        interval_cases n <;> simp only [utf8Limits, Nat.reduceSub, List.getD_cons_succ,
          List.getD_cons_zero] at this <;> omega
      refine ⟨h31, ds.map (fun d => UInt8.ofNat (0x80 + d)), rest.drop (n - 1), ?_, hrest, ?_⟩
      · rw [rbUvToUtf8_eq hlo h31, hlen_eq, map_utf8Seq, ← hdlen, hv, hdiv, hdig, ← hc,
          UInt8.ofNat_toNat]
      · rw [List.length_map, hdlen]
        omega

/-- **UTF-8 of up to six bytes, both ways.** `utf8_to_uv` reads back every value below `2 ^ 31`
that `rb_uv_to_utf8` writes, with `*lenp` its length, when at least that many bytes are
available; and it returns without raising exactly when the bytes it is given start with what
`rb_uv_to_utf8` writes for some value. -/
theorem utf8_to_uv_inverts_exactly :
    (∀ uv < 2 ^ 31, ∃ c cs, rbUvToUtf8 uv = .ok (c :: cs) ∧
      ∀ rest, utf8ToUv c (cs ++ rest) = .ok (uv, cs.length + 1)) ∧
    ∀ c rest, (∃ r, utf8ToUv c rest = .ok r) ↔
      ∃ uv < 2 ^ 31, ∃ cs rest', rbUvToUtf8 uv = .ok (c :: cs) ∧ rest = cs ++ rest' := by
  refine ⟨fun uv huv => utf8ToUv_rbUvToUtf8 huv, fun c rest => ⟨?_, ?_⟩⟩
  · rintro ⟨⟨uv, n⟩, h⟩
    obtain ⟨h31, cs, rest', henc, hrest, -⟩ := rbUvToUtf8_of_utf8ToUv h
    exact ⟨uv, h31, cs, rest', henc, hrest⟩
  · rintro ⟨uv, h31, cs, rest', henc, rfl⟩
    obtain ⟨c', cs', henc', hdec⟩ := utf8ToUv_rbUvToUtf8 h31
    rw [henc] at henc'
    obtain ⟨rfl, rfl⟩ := List.cons_eq_cons.mp (Except.ok.inj henc')
    exact ⟨_, hdec rest'⟩

/-! ## `unpack('U*')` inverts `pack('U*')` -/

theorem lt_of_rbUvToUtf8_eq_ok {uv : ℕ} {buf : List UInt8} (h : rbUvToUtf8 uv = .ok buf) :
    uv < 2 ^ 31 := by
  unfold rbUvToUtf8 at h
  split_ifs at h <;> omega

/-- `pack('U*')` succeeds on every list of values in `[0, 2 ^ 31)`. -/
theorem packU_ok : ∀ items : List ℤ, (∀ x ∈ items, 0 ≤ x ∧ x < 2 ^ 31) →
    ∃ bs, packU items = .ok bs
  | [], _ => ⟨[], rfl⟩
  | l :: items, hitems => by
    obtain ⟨hl0, hl31⟩ := hitems l (List.mem_cons_self ..)
    obtain ⟨c, cs, henc, -⟩ := @utf8ToUv_rbUvToUtf8 l.toNat (by omega)
    obtain ⟨rest, hrest⟩ := packU_ok items (fun x hx => hitems x (List.mem_cons_of_mem _ hx))
    refine ⟨c :: cs ++ rest, ?_⟩
    simp only [packU, if_neg (not_lt.mpr hl0), henc, hrest]
    rfl

/-- The `'U'` loop decodes the items one after another, given at least as many turns as bytes.
By induction on the items: each turn reads one character and leaves the bytes after it. -/
theorem unpackUtf8Loop_packU {items : List ℤ} {bs : List UInt8} (h : packU items = .ok bs) :
    ∀ len, bs.length ≤ len → unpackUtf8Loop len bs = .ok (items.map Int.toNat) := by
  induction items generalizing bs with
  | nil =>
    cases h
    intro len _
    cases len <;> rfl
  | cons l items ih =>
    intro len hlen
    simp only [packU] at h
    split_ifs at h with hneg
    cases hbuf : rbUvToUtf8 l.toNat with
    | error e =>
      rw [hbuf] at h
      cases h
    | ok buf =>
      cases hrest : packU items with
      | error e =>
        rw [hbuf, hrest] at h
        cases h
      | ok rest =>
        rw [hbuf, hrest] at h
        cases h
        obtain ⟨c, cs, henc, hdec⟩ := utf8ToUv_rbUvToUtf8 (lt_of_rbUvToUtf8_eq_ok hbuf)
        rw [hbuf] at henc
        cases henc
        obtain ⟨len, rfl⟩ : ∃ len', len = len' + 1 :=
          ⟨len - 1, by simp only [List.length_append, List.length_cons] at hlen; omega⟩
        have hnext := ih hrest len (by simp only [List.length_append, List.length_cons] at hlen; omega)
        simp only [List.cons_append, unpackUtf8Loop, hdec]
        show (unpackUtf8Loop len ((cs ++ rest).drop (cs.length + 1 - 1)) >>= fun items =>
          pure (l.toNat :: items)) = _
        rw [Nat.add_sub_cancel, List.drop_left, hnext]
        rfl

/-- **`unpack('U*')` inverts `pack('U*')`**: on the string `pack('U*')` makes of a list of
values, `unpack('U*')` returns the values. -/
theorem unpackUtf8_packU {items : List ℤ} {bs : List UInt8} (h : packU items = .ok bs) :
    unpackUtf8 bs = .ok (items.map Int.toNat) :=
  unpackUtf8Loop_packU h _ le_rfl

example : packU [0x41, 0xe9, 0x20ac, 0x1f600] =
    .ok [0x41, 0xc3, 0xa9, 0xe2, 0x82, 0xac, 0xf0, 0x9f, 0x98, 0x80] := by decide

end CRuby.Pack
