import Mathlib.Data.List.Basic
import Mathlib.Tactic.Linarith

/-!
# `rb_ary_splice` with a replacement inside the array

`rb_ary_splice(ary, beg, len, rptr, rlen)` replaces `ary[beg, len]` by the `rlen` values at
`rptr`. The replacement may lie in the array's own buffer: `a[1..-1]` of an array of more than
`RARRAY_EMBED_LEN_MAX` elements shares it (`ary_make_partial`). The function records the offset
`rofs` of such a source, un-shares or grows the array (`rb_ary_modify`, `ary_double_capa`, which
both keep the values), moves the tail with `MEMMOVE`, and only then reads the source at
`RARRAY_CONST_PTR(ary) + rofs`. If the tail moved over that window, the source is read after it
changed: `a[0, 1] = a[1..-1]` on `[0, ..., 9]` answers `[1, ..., 8, 1, 1, ..., 9]`.

The buffer is modelled by its values, a list: `MEMMOVE` writes a copy of one window over another
(`writeAt`). The source is a list of its own (`Rptr.ext`) or a window of the array's buffer
(`Rptr.inAry`), read from the buffer as it is at the read. Where it lies outside the buffer, or
at or before `beg`, the result is the splice the call asks for (`rbArySplice_ext`,
`rbArySplice_inAry_of_le`).
-/

namespace CRuby.Ary

variable {α : Type}

/-- `RARRAY_EMBED_LEN_MAX`. -/
def embedLenMax : ℕ := 3

/-- `ARY_MAX_SIZE`: `LONG_MAX / sizeof(VALUE)`. -/
def aryMaxSize : ℤ := (2 ^ 63 - 1) / 8

/-- The replacement `rptr[0, rlen)`: values of their own, or the window `[rofs, rofs + rlen)` of
the array's buffer. -/
inductive Rptr (α : Type) where
  | ext (vals : List α)
  | inAry (rofs rlen : ℕ)

/-- `rlen`. -/
def Rptr.rlen : Rptr α → ℕ
  | .ext vals => vals.length
  | .inAry _ rlen => rlen

/-- The values at `rptr` when the buffer holds `buf`. -/
def Rptr.read (buf : List α) : Rptr α → List α
  | .ext vals => vals
  | .inAry rofs rlen => (buf.drop rofs).take rlen

/-- `RARRAY_CONST_PTR` of `ary_make_partial(ary, klass, offset, len)`: a copy up to
`RARRAY_EMBED_LEN_MAX` values, else a window of `ary`'s buffer, which it then shares. -/
def aryMakePartial (ary : List α) (offset len : ℕ) : Rptr α :=
  if len ≤ embedLenMax then .ext ((ary.drop offset).take len) else .inAry offset len

/-- The values `vals` written at `dst`: `ary_memcpy0` or `MEMMOVE` of a copy. -/
def writeAt (buf : List α) (dst : ℕ) (vals : List α) : List α :=
  buf.take dst ++ vals ++ buf.drop (dst + vals.length)

/-- `MEMMOVE(ptr + dst, ptr + src, VALUE, n)`. -/
def memmove (buf : List α) (dst src n : ℕ) : List α :=
  writeAt buf dst ((buf.drop src).take n)

/-- The buffer after `rb_ary_modify`, `ary_double_capa` and the move of the tail, for
`beg + len ≤ olen`: room up to `alen = olen + rlen - len` (its values unwritten, `nil` here),
and `ary[beg + len, olen)` moved to `beg + rlen`. -/
def shiftTail (nil : α) (ary : List α) (beg len rlen : ℕ) : List α :=
  let olen := ary.length
  let alen := olen + rlen - len
  let buf := ary ++ List.replicate (alen - olen) nil
  let buf := if len ≠ rlen then memmove buf (beg + rlen) (beg + len) (olen - (beg + len)) else buf
  buf.take alen

/-- `rb_ary_splice(ary, beg, len, rptr, rlen)`: the array afterwards. -/
def rbArySplice (nil : α) (ary : List α) (beg len : ℤ) (rptr : Rptr α) : Except String (List α) := do
  if len < 0 then throw s!"negative length ({len})"
  let olen : ℤ := ary.length
  let beg ← if beg < 0 then
      if beg + olen < 0 then throw s!"index {beg} too small for array; minimum: {-olen}"
      else pure (beg + olen)
    else pure beg
  let len := if olen < len ∨ olen < beg + len then olen - beg else len
  let rlen : ℤ := rptr.rlen
  if olen ≤ beg then
    if aryMaxSize - rlen < beg then throw s!"index {beg} too big"
    -- `ary_mem_clear(ary, olen, beg - olen)`, then the values at `beg`
    let buf := ary ++ List.replicate (beg - olen).toNat nil
    return writeAt buf beg.toNat (rptr.read buf)
  else
    if aryMaxSize - rlen < olen - len then throw s!"index {olen + rlen - len} too big"
    let buf := shiftTail nil ary beg.toNat len.toNat rptr.rlen
    -- `if (rofs != -1) rptr = RARRAY_CONST_PTR(ary) + rofs;`: read after the move
    return writeAt buf beg.toNat (rptr.read buf)

/-- What `ary[beg, len] = rpl` should leave: the head, `nil` up to `beg`, the replacement as it
was, the tail. -/
def spliceSpec (nil : α) (ary : List α) (beg len : ℕ) (vals : List α) : List α :=
  ary.take beg ++ List.replicate (beg - ary.length) nil ++ vals ++ ary.drop (beg + len)

/-- The values the replacement had before the call. -/
def Rptr.orig (ary : List α) (rptr : Rptr α) : List α := rptr.read ary

/-! ### The buffer -/

/-- The tail move leaves the first `beg + rlen` places of the grown buffer and puts the tail
behind them. -/
theorem shiftTail_eq (nil : α) (ary : List α) {beg len rlen : ℕ} (h : beg + len ≤ ary.length) :
    shiftTail nil ary beg len rlen =
      (ary ++ List.replicate (ary.length + rlen - len - ary.length) nil).take (beg + rlen) ++
        ary.drop (beg + len) := by
  unfold shiftTail
  dsimp only
  split_ifs with hne
  · -- the tail `ary[beg + len, olen)` is read from the part of the buffer that is `ary`
    have htail : ((ary ++ List.replicate (ary.length + rlen - len - ary.length) nil).drop (beg + len)).take
        (ary.length - (beg + len)) = ary.drop (beg + len) := by
      rw [List.drop_append_of_le_length (by omega), List.take_append_of_le_length (by simp)]
      exact List.take_of_length_le (by simp)
    have hhead : ((ary ++ List.replicate (ary.length + rlen - len - ary.length) nil).take
        (beg + rlen)).length = beg + rlen := by simp; omega
    rw [memmove, writeAt, htail, List.length_drop,
      show beg + rlen + (ary.length - (beg + len)) = ary.length + rlen - len by omega]
    exact List.take_left' (by rw [List.length_append, hhead, List.length_drop]; omega)
  · -- `len = rlen`: nothing moves and nothing grows
    obtain rfl : len = rlen := not_not.mp hne
    simp

/-- Writing `rlen` values at `beg` over the shifted buffer gives the splice. -/
theorem writeAt_shiftTail (nil : α) (ary : List α) {beg len : ℕ} (h : beg + len ≤ ary.length)
    (vals : List α) :
    writeAt (shiftTail nil ary beg len vals.length) beg vals = ary.take beg ++ vals ++ ary.drop (beg + len) := by
  have hhead : ((ary ++ List.replicate (ary.length + vals.length - len - ary.length) nil).take
      (beg + vals.length)).length = beg + vals.length := by simp; omega
  rw [shiftTail_eq nil ary h, writeAt, List.take_append_of_le_length (by omega),
    List.drop_append_of_le_length (by omega), List.drop_of_length_le (by omega), List.nil_append,
    List.take_take, min_eq_left (by omega), List.take_append_of_le_length (by omega)]

/-- A window at or before `beg` still holds its values after the tail moved. -/
theorem read_shiftTail (nil : α) (ary : List α) {beg len rofs rlen : ℕ} (h : beg + len ≤ ary.length)
    (hofs : rofs ≤ beg) (hend : rofs + rlen ≤ ary.length) :
    (Rptr.inAry rofs rlen).read (shiftTail nil ary beg len rlen) = (Rptr.inAry rofs rlen).orig ary := by
  apply List.ext_getElem?
  intro i
  simp only [Rptr.orig, Rptr.read, List.getElem?_take, List.getElem?_drop]
  split_ifs with hi
  · rw [shiftTail_eq nil ary h, List.getElem?_append_left (by simp; omega), List.getElem?_take,
      if_pos (by omega), List.getElem?_append_left (by omega)]
  · rfl

/-! ### The function -/

section Splice

variable (nil : α) (ary : List α) (rptr : Rptr α)

/-- Inside the array: the length is cut at the end, the tail moved, the source read. -/
theorem rbArySplice_of_lt {b l : ℕ} (hb : b < ary.length)
    (hsize : (ary.length : ℤ) + rptr.rlen ≤ aryMaxSize) :
    rbArySplice nil ary b l rptr =
      .ok (writeAt (shiftTail nil ary b (min l (ary.length - b)) rptr.rlen) b
        (rptr.read (shiftTail nil ary b (min l (ary.length - b)) rptr.rlen))) := by
  have hl : (if (ary.length : ℤ) < l ∨ (ary.length : ℤ) < b + l then (ary.length : ℤ) - b else l).toNat =
      min l (ary.length - b) := by
    split_ifs <;> omega
  simp only [rbArySplice, Int.natCast_nonneg, not_lt.mpr, if_false, pure_bind, Int.toNat_natCast, hl]
  rw [if_neg (by exact_mod_cast not_le.mpr hb), if_neg (by split_ifs <;> omega)]
  rfl

/-- Past the end: `nil` up to `beg`, then the source. -/
theorem rbArySplice_of_ge {b l : ℕ} (hb : ary.length ≤ b) (hsize : (b : ℤ) + rptr.rlen ≤ aryMaxSize) :
    rbArySplice nil ary b l rptr =
      .ok (writeAt (ary ++ List.replicate (b - ary.length) nil) b
        (rptr.read (ary ++ List.replicate (b - ary.length) nil))) := by
  have hpad : ((b : ℤ) - ary.length).toNat = b - ary.length := by omega
  simp only [rbArySplice, Int.natCast_nonneg, not_lt.mpr, if_false, pure_bind, Int.toNat_natCast, hpad]
  rw [if_pos (by exact_mod_cast hb), if_neg (by omega)]
  rfl

/-- The tail cut at the end of the array is the same tail. -/
theorem drop_add_min {b l : ℕ} (hb : b < ary.length) :
    ary.drop (b + min l (ary.length - b)) = ary.drop (b + l) := by
  rcases le_total l (ary.length - b) with h | h
  · rw [min_eq_left h]
  · rw [min_eq_right h, List.drop_of_length_le (by omega), List.drop_of_length_le (by omega)]

/-- **A replacement of its own is spliced in**, before, inside or past the end of the array. -/
theorem rbArySplice_ext {b l : ℕ} (vals : List α)
    (hsize : (ary.length : ℤ) + b + vals.length ≤ aryMaxSize) :
    rbArySplice nil ary b l (.ext vals) = .ok (spliceSpec nil ary b l vals) := by
  by_cases hb : b < ary.length
  · rw [rbArySplice_of_lt nil ary _ hb (by simp only [Rptr.rlen]; omega)]
    simp only [Rptr.read, Rptr.rlen]
    rw [writeAt_shiftTail nil ary (by omega), drop_add_min ary hb, spliceSpec,
      show b - ary.length = 0 by omega, List.replicate_zero, List.append_nil]
  · have hge : ary.length ≤ b := not_lt.mp hb
    rw [rbArySplice_of_ge nil ary _ hge (by simp only [Rptr.rlen]; omega)]
    have hlen : (ary ++ List.replicate (b - ary.length) nil).length = b := by simp; omega
    simp only [Rptr.read, writeAt, spliceSpec]
    rw [List.take_of_length_le hlen.le, List.drop_of_length_le (by omega),
      List.take_of_length_le hge, List.drop_of_length_le (by omega)]

/-- **A window of the array's own buffer** that ends inside it and starts at or before `beg`
is read before the moved tail reaches it, and is spliced in as it was. -/
theorem rbArySplice_inAry_of_le {b l rofs rlen : ℕ} (hb : b < ary.length) (hofs : rofs ≤ b)
    (hend : rofs + rlen ≤ ary.length) (hsize : (ary.length : ℤ) + rlen ≤ aryMaxSize) :
    rbArySplice nil ary b l (.inAry rofs rlen) =
      .ok (spliceSpec nil ary b l ((Rptr.inAry rofs rlen).orig ary)) := by
  have hcut : b + min l (ary.length - b) ≤ ary.length := by omega
  have horig : ((Rptr.inAry rofs rlen).orig ary).length = rlen := by
    simp [Rptr.orig, Rptr.read]; omega
  rw [rbArySplice_of_lt nil ary (.inAry rofs rlen) hb hsize]
  simp only [Rptr.rlen]
  have hw := writeAt_shiftTail nil ary hcut ((Rptr.inAry rofs rlen).orig ary)
  rw [horig] at hw
  rw [read_shiftTail nil ary hcut hofs hend, hw, drop_add_min ary hb, spliceSpec,
    show b - ary.length = 0 by omega, List.replicate_zero, List.append_nil]

end Splice

/-- `a = (0..9).to_a; a[0, 1] = a[1..-1]`: the nine values of `a[1..-1]` share `a`'s buffer at
offset 1, the tail `a[1, 9]` moves to offset 9 first, and the source is then read from the
moved buffer, whose place 9 now holds `1`. The splice asked for is `(1..9).to_a * 2`. -/
theorem splice_reads_moved_source :
    rbArySplice none ((List.range 10).map some) 0 1 (aryMakePartial ((List.range 10).map some) 1 9) =
        .ok ([1, 2, 3, 4, 5, 6, 7, 8, 1, 1, 2, 3, 4, 5, 6, 7, 8, 9].map some) ∧
      spliceSpec none ((List.range 10).map some) 0 1
          ((aryMakePartial ((List.range 10).map some) 1 9).orig ((List.range 10).map some)) =
        [1, 2, 3, 4, 5, 6, 7, 8, 9, 1, 2, 3, 4, 5, 6, 7, 8, 9].map some :=
  ⟨rfl, rfl⟩

end CRuby.Ary
