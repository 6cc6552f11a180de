import Mathlib.Data.List.Perm.Basic
import Mathlib.Data.List.Sort
import CRuby.Num.Fixnum

/-!
# `min(n)`, `max(n)`, `min_by(n)` and `max_by(n)`

`rb_nmin_run` (enum.c) keeps a buffer of at most `4 n` candidates. `nmin_i` appends each element,
unless it is not below `limit`, and when the buffer is full `nmin_filter` shrinks it to the `n`
smallest: a quickselect that splits the buffer in place around a pivot into the smaller
elements, the elements equal to it and the greater ones, and goes on in the part that holds
position `n`. The pivot it ends on becomes `limit`. At the end the buffer is filtered once more
and sorted by `ruby_qsort`, and reversed for `max`. `*_by` keeps pairs of a key and an element
and compares keys; `max` negates the comparison.

The buffer is a list, read and written through checked accesses (`bufGet`, `bufSwap`), so a run
that reached outside the buffer would give `none`; each loop has a fuel bound and gives `none`
when it runs out. `ruby_qsort` is a parameter: any sort by the comparison.

* For every comparison at all, `nmin_filter` ends within the fuel the model gives it and only
  touches positions of the buffer (`nminFilter_ends`); so does `rb_nmin_run` (`rbNminRun_ends`).
* For a comparison by a total preorder, the split puts the smaller elements, the pivots and the
  greater ones in three blocks (`partitionLoop_spec`, `moveLoop_spec`), each turn of the
  quickselect keeps the part left of `left` below the rest and the part right of `right` above it
  (`FilterInv`), and the filter leaves the `n` smallest first, below `limit`, and the others above
  it (`filterLoop_spec`).
* Over the whole enumeration, once there is a `limit` the buffer holds at least `n` elements, all
  at or below `limit`, and every element dropped or filtered out is at or above it (`StreamInv`,
  `Kept`); so `rb_nmin_run` returns `min(n, count)` elements of the enumeration, sorted, at or
  below every element it leaves out (`rbNminRun_spec`, `NLeast`). An `n` above
  `LONG_MAX / 4 / eltsize` raises "too big size" instead.
-/

namespace CRuby.Enum

open CRuby.Num

variable {α ε κ : Type}

/-! ## The buffer -/

/-- `*GETPTR(i)`: the element at position `i` of the buffer, `none` outside it. -/
def bufGet (buf : List ε) (i : ℤ) : Option ε :=
  if 0 ≤ i then buf[i.toNat]? else none

/-- `SWAP(i, j)`: the elements at `i` and `j` exchanged through `tmp`, `none` when either is
outside the buffer. -/
def bufSwap (buf : List ε) (i j : ℤ) : Option (List ε) := do
  let x ← bufGet buf i
  let y ← bufGet buf j
  pure ((buf.set i.toNat y).set j.toNat x)

/-- The comparison `nmin_filter` and `nmin_i` make: `cmpfunc`, negated for `max`. -/
def revCmp (cmp : κ → κ → ℤ) (rev : Bool) (a b : κ) : ℤ :=
  if rev then -cmp a b else cmp a b

/-! ## `nmin_filter` -/

/-- The variables of the split in `nmin_filter`. -/
structure PartState (ε : Type) where
  buf : List ε
  i : ℤ
  storeIndex : ℤ
  numPivots : ℤ

section Filter

variable (c : κ → κ → ℤ) (key : ε → κ)

/-- One turn of the split at `i`: an element equal to the pivot at `right` joins the pivots
gathered before `right`, a smaller one goes to `store_index`, a greater one stays. -/
def partitionStep (right : ℤ) (s : PartState ε) : Option (PartState ε) := do
  let a ← bufGet s.buf s.i
  let p ← bufGet s.buf right
  let cv := c (key a) (key p)
  if cv = 0 then
    let buf ← bufSwap s.buf s.i (right - s.numPivots)
    pure ⟨buf, s.i, s.storeIndex, s.numPivots + 1⟩
  else if cv < 0 then
    let buf ← bufSwap s.buf s.i s.storeIndex
    pure ⟨buf, s.i + 1, s.storeIndex + 1, s.numPivots⟩
  else pure ⟨s.buf, s.i + 1, s.storeIndex, s.numPivots⟩

/-- `while (i <= right-num_pivots)`, within `fuel` turns. -/
def partitionLoop (right : ℤ) : ℕ → PartState ε → Option (PartState ε)
  | 0, s => if s.i ≤ right - s.numPivots then none else some s
  | fuel + 1, s =>
    if s.i ≤ right - s.numPivots then (partitionStep c key right s).bind (partitionLoop right fuel)
    else some s

/-- `for (i = right; right-num_pivots < i; i--)`: the pivots are swapped to the front of the
greater elements, from `j = store_index` on, until the two ends meet. -/
def moveLoop (right numPivots : ℤ) : ℕ → List ε → ℤ → ℤ → Option (List ε)
  | 0, buf, i, j => if right - numPivots < i ∧ j < i then none else some buf
  | fuel + 1, buf, i, j =>
    if right - numPivots < i then
      if i ≤ j then some buf
      else do
        let buf ← bufSwap buf j i
        moveLoop right numPivots fuel buf (i - 1) (j + 1)
    else some buf

/-- One turn of the `while (1)` of `nmin_filter` on `left..right`: the middle element is swapped to
`right` as the pivot, the elements are split around it and the pivots moved after the smaller
ones. The buffer, `store_index` and `num_pivots` after it. -/
def filterRound (buf : List ε) (left right : ℤ) : Option (List ε × ℤ × ℤ) := do
  let buf ← bufSwap buf (left + (right - left).tdiv 2) right
  let s ← partitionLoop c key right buf.length ⟨buf, left, left, 1⟩
  let buf ← moveLoop right s.numPivots s.buf.length s.buf right s.storeIndex
  pure (buf, s.storeIndex, s.numPivots)

/-- The `while (1)` of `nmin_filter`, at most `fuel` turns: it ends when `n` lies among the pivots,
and goes on in the smaller elements or in the greater ones. The buffer and `store_index` when it
ends. -/
def filterLoop (n : ℤ) : ℕ → List ε → ℤ → ℤ → Option (List ε × ℤ)
  | 0, _, _, _ => none
  | fuel + 1, buf, left, right => do
    let (buf, storeIndex, numPivots) ← filterRound c key buf left right
    if storeIndex ≤ n ∧ n ≤ storeIndex + numPivots then pure (buf, storeIndex)
    else if n < storeIndex then filterLoop n fuel buf left (storeIndex - 1)
    else filterLoop n fuel buf (storeIndex + numPivots) right

/-- The fields of `struct nmin_data` the functions change: `n`, `bufmax`, the buffer (its length
is `curlen`) and `limit` (`Qundef` is `none`). -/
structure NminData (ε κ : Type) where
  n : ℤ
  bufmax : ℤ
  buf : List ε
  limit : Option κ

/-- `nmin_filter`: nothing to do with `n` elements or fewer; otherwise the quickselect, the pivot
it ends on as `limit`, and the buffer cut to `n`. -/
def nminFilter (d : NminData ε κ) : Option (NminData ε κ) :=
  if (d.buf.length : ℤ) ≤ d.n then some d
  else do
    let (buf, storeIndex) ← filterLoop c key d.n d.buf.length d.buf 0 (d.buf.length - 1)
    let l ← bufGet buf storeIndex
    pure { d with buf := buf.take d.n.toNat, limit := some (key l) }

/-- `nmin_i` on the element `x`, kept as `elt x` (the element, or its key and itself for `*_by`):
dropped when it is not below `limit`, else appended, and the buffer filtered when it is full. -/
def nminI (elt : α → ε) (d : NminData ε κ) (x : α) : Option (NminData ε κ) :=
  if d.limit.map (fun l => decide (0 ≤ c (key (elt x)) l)) = some true then some d
  else
    let buf := d.buf ++ [elt x]
    if (buf.length : ℤ) = d.bufmax then nminFilter c key { d with buf } else some { d with buf }

end Filter

/-! ## `rb_nmin_run` -/

/-- `rb_nmin_run(obj, num, by, rev, ary)` on the elements `xs`, with `cmp` the comparison of keys
and `sort` for `ruby_qsort` by it. An element is kept as `elt x` of `eltsize` values, its key read
by `key` and the element by `out`. `.error` is the `ArgumentError` raised. -/
def rbNminRun (cmp : κ → κ → ℤ) (rev : Bool) (key : ε → κ) (elt : α → ε) (out : ε → α)
    (eltsize : ℤ) (sort : List ε → List ε) (num : ℤ) (xs : List α) :
    Except String (Option (List α)) :=
  if num < 0 then .error ("negative size (" ++ toString num ++ ")")
  else if num = 0 then .ok (some [])
  else if longMax / 4 / eltsize < num then .error "too big size"
  else .ok do
    let d ← xs.foldlM (nminI (revCmp cmp rev) key elt) ⟨num, num * 4, [], none⟩
    let d ← nminFilter (revCmp cmp rev) key d
    let r := (sort d.buf).map out
    pure (if rev then r.reverse else r)

/-- `Enumerable#min(n)`, and `Array#min(n)`: elements compared as themselves. -/
def enumMinN (cmp : α → α → ℤ) (sort : List α → List α) (num : ℤ) (xs : List α) :
    Except String (Option (List α)) :=
  rbNminRun cmp false id id id 1 sort num xs

/-- `Enumerable#max(n)`, and `Array#max(n)`. -/
def enumMaxN (cmp : α → α → ℤ) (sort : List α → List α) (num : ℤ) (xs : List α) :
    Except String (Option (List α)) :=
  rbNminRun cmp true id id id 1 sort num xs

/-- `Enumerable#min_by(n)`: pairs of the block's key and the element, compared by key. -/
def enumMinByN (cmp : κ → κ → ℤ) (f : α → κ) (sort : List (κ × α) → List (κ × α)) (num : ℤ)
    (xs : List α) : Except String (Option (List α)) :=
  rbNminRun cmp false Prod.fst (fun x => (f x, x)) Prod.snd 2 sort num xs

/-- `Enumerable#max_by(n)`. -/
def enumMaxByN (cmp : κ → κ → ℤ) (f : α → κ) (sort : List (κ × α) → List (κ × α)) (num : ℤ)
    (xs : List α) : Except String (Option (List α)) :=
  rbNminRun cmp true Prod.fst (fun x => (f x, x)) Prod.snd 2 sort num xs

/-! ## Reading and swapping -/

section Buffer

variable {buf : List ε} {a b k : ℤ}

theorem bufGet_eq (h0 : 0 ≤ k) (h : k < buf.length) : bufGet buf k = some buf[k.toNat] := by
  rw [bufGet, if_pos h0, List.getElem?_eq_getElem]

theorem bufGet_eq_none (h : k < 0 ∨ buf.length ≤ k) : bufGet buf k = none := by
  unfold bufGet
  split_ifs with h0
  · exact List.getElem?_eq_none (by omega)
  · rfl

theorem bufGet_isSome (h0 : 0 ≤ k) (h : k < buf.length) : (bufGet buf k).isSome := by
  rw [bufGet_eq h0 h]
  rfl

theorem bufSwap_eq (ha0 : 0 ≤ a) (ha : a < buf.length) (hb0 : 0 ≤ b) (hb : b < buf.length) :
    bufSwap buf a b = some (buf.swap a.toNat b.toNat) := by
  simp only [bufSwap, bufGet_eq ha0 ha, bufGet_eq hb0 hb, Option.bind_eq_bind, Option.bind_some,
    Option.pure_def]
  rw [List.swap_eq_of_lt]

/-- A swap within the buffer exchanges the two places and leaves the others. -/
theorem bufGet_swap (ha0 : 0 ≤ a) (ha : a < buf.length) (hb0 : 0 ≤ b) (hb : b < buf.length) (k : ℤ) :
    bufGet (buf.swap a.toNat b.toNat) k =
      if k = a then bufGet buf b else if k = b then bufGet buf a else bufGet buf k := by
  by_cases hk : 0 ≤ k ∧ k < buf.length
  · have hk' : k.toNat < (buf.swap a.toNat b.toNat).length := by rw [List.length_swap]; omega
    rw [bufGet_eq hk.1 (by rw [List.length_swap]; exact hk.2), List.getElem_swap hk']
    by_cases hka : k = a
    · subst hka
      rw [dif_pos ⟨rfl, by omega⟩, if_pos rfl, bufGet_eq hb0 hb]
    · by_cases hkb : k = b
      · subst hkb
        rw [dif_neg (by omega), dif_pos ⟨rfl, by omega⟩, if_neg hka, if_pos rfl, bufGet_eq ha0 ha]
      · rw [dif_neg (by omega), dif_neg (by omega), if_neg hka, if_neg hkb, bufGet_eq hk.1 hk.2]
  · have hk' : k < 0 ∨ buf.length ≤ k := by omega
    rw [bufGet_eq_none (by rw [List.length_swap]; exact hk'), if_neg (by omega),
      if_neg (by omega), bufGet_eq_none hk']

theorem bufGet_swap_left (ha0 : 0 ≤ a) (ha : a < buf.length) (hb0 : 0 ≤ b) (hb : b < buf.length) :
    bufGet (buf.swap a.toNat b.toNat) a = bufGet buf b := by
  rw [bufGet_swap ha0 ha hb0 hb, if_pos rfl]

theorem bufGet_swap_right (ha0 : 0 ≤ a) (ha : a < buf.length) (hb0 : 0 ≤ b) (hb : b < buf.length) :
    bufGet (buf.swap a.toNat b.toNat) b = bufGet buf a := by
  rw [bufGet_swap ha0 ha hb0 hb]
  by_cases h : b = a
  · rw [if_pos h, h]
  · rw [if_neg h, if_pos rfl]

theorem bufGet_swap_of_ne (ha0 : 0 ≤ a) (ha : a < buf.length) (hb0 : 0 ≤ b) (hb : b < buf.length)
    (hka : k ≠ a) (hkb : k ≠ b) : bufGet (buf.swap a.toNat b.toNat) k = bufGet buf k := by
  rw [bufGet_swap ha0 ha hb0 hb, if_neg hka, if_neg hkb]

end Buffer

/-- Every element at the places `lo ≤ k < hi` of the buffer has `P`. -/
def Holds (buf : List ε) (lo hi : ℤ) (P : ε → Prop) : Prop :=
  ∀ k x, lo ≤ k → k < hi → bufGet buf k = some x → P x

section Holds

variable {buf : List ε} {lo hi a b : ℤ} {P : ε → Prop}

/-- After a swap, a place holds what the other place of the swap held. -/
theorem holds_swap (ha0 : 0 ≤ a) (ha : a < buf.length) (hb0 : 0 ≤ b) (hb : b < buf.length) :
    Holds (buf.swap a.toNat b.toNat) lo hi P ↔
      ∀ k x, lo ≤ k → k < hi → bufGet buf (if k = a then b else if k = b then a else k) = some x →
        P x := by
  refine forall_congr' fun k => forall_congr' fun x => ?_
  rw [bufGet_swap ha0 ha hb0 hb]
  split_ifs <;> rfl

theorem Holds.mono {lo' hi' : ℤ} (h : Holds buf lo hi P) (hlo : lo ≤ lo') (hhi : hi' ≤ hi) :
    Holds buf lo' hi' P :=
  fun k x h1 h2 hx => h k x (by omega) (by omega) hx

theorem Holds.of_imp {Q : ε → Prop} (h : Holds buf lo hi P) (hPQ : ∀ x, P x → Q x) :
    Holds buf lo hi Q :=
  fun k x h1 h2 hx => hPQ x (h k x h1 h2 hx)

/-- Two blocks that meet hold together. -/
theorem Holds.append {mid : ℤ} (h1 : Holds buf lo mid P) (h2 : Holds buf mid hi P) :
    Holds buf lo hi P := by
  intro k x hk1 hk2 hx
  rcases lt_or_ge k mid with hk | hk
  · exact h1 k x hk1 hk hx
  · exact h2 k x hk hk2 hx

/-- A swap of two places outside the block leaves it as it was. -/
theorem Holds.swap_outside (h : Holds buf lo hi P) (ha0 : 0 ≤ a) (ha : a < buf.length) (hb0 : 0 ≤ b)
    (hb : b < buf.length) (ha' : a < lo ∨ hi ≤ a) (hb' : b < lo ∨ hi ≤ b) :
    Holds (buf.swap a.toNat b.toNat) lo hi P := by
  intro k x hk1 hk2 hx
  rw [bufGet_swap ha0 ha hb0 hb, if_neg (by omega), if_neg (by omega)] at hx
  exact h k x hk1 hk2 hx

theorem holds_single (hx : ∀ x, bufGet buf a = some x → P x) : Holds buf a (a + 1) P := by
  intro k x h1 h2 hk
  obtain rfl : k = a := by omega
  exact hx x hk

/-- The places `left..right` of `buf` hold only elements from the places `left..right` of
`buf0`. -/
def Seg (left right : ℤ) (buf buf0 : List ε) : Prop :=
  ∀ k y, left ≤ k → k ≤ right → bufGet buf k = some y →
    ∃ k', left ≤ k' ∧ k' ≤ right ∧ bufGet buf0 k' = some y

theorem seg_refl (left right : ℤ) (buf : List ε) : Seg left right buf buf :=
  fun k _ h1 h2 hy => ⟨k, h1, h2, hy⟩

theorem Seg.trans {left right : ℤ} {buf1 buf0 : List ε} (h : Seg left right buf buf1)
    (h' : Seg left right buf1 buf0) : Seg left right buf buf0 := by
  intro k y h1 h2 hy
  obtain ⟨k', h1', h2', hy'⟩ := h k y h1 h2 hy
  exact h' k' y h1' h2' hy'

/-- A segment of the buffer that draws on a smaller one draws on the larger one. -/
theorem Seg.widen {left right left' right' : ℤ} {buf0 : List ε} (h : Seg left right buf buf0)
    (hl : left' ≤ left) (hr : right ≤ right')
    (hframe : ∀ k, (k < left ∨ right < k) → bufGet buf k = bufGet buf0 k) :
    Seg left' right' buf buf0 := by
  intro k y h1 h2 hy
  by_cases hk : left ≤ k ∧ k ≤ right
  · obtain ⟨k', h1', h2', hy'⟩ := h k y hk.1 hk.2 hy
    exact ⟨k', by omega, by omega, hy'⟩
  · exact ⟨k, h1, h2, (hframe k (by omega)) ▸ hy⟩

/-- A swap of two places of the segment keeps it. -/
theorem Seg.swap {left right : ℤ} {buf0 : List ε} (h : Seg left right buf buf0) (ha0 : 0 ≤ a)
    (ha : a < buf.length) (hb0 : 0 ≤ b) (hb : b < buf.length) (ha' : left ≤ a ∧ a ≤ right)
    (hb' : left ≤ b ∧ b ≤ right) : Seg left right (buf.swap a.toNat b.toNat) buf0 := by
  intro k y h1 h2 hy
  rw [bufGet_swap ha0 ha hb0 hb] at hy
  split_ifs at hy
  · exact h b y hb'.1 hb'.2 hy
  · exact h a y ha'.1 ha'.2 hy
  · exact h k y h1 h2 hy

end Holds

/-! ## The split -/

section Split

variable {c : κ → κ → ℤ} {key : ε → κ} {left right : ℤ} {buf0 : List ε} {p : ε}

/-- The split's invariant on `left..right` around the pivot `p` at `right`: the smaller elements
fill `left..store_index`, the greater ones `store_index..i`, and the elements equal to the pivot
the `num_pivots - 1` places before `right`; the buffer is a permutation of what it was, the same
outside `left..right`. -/
structure PartInv (c : κ → κ → ℤ) (key : ε → κ) (left right : ℤ) (buf0 : List ε) (p : ε)
    (s : PartState ε) : Prop where
  left_nonneg : 0 ≤ left
  left_le : left ≤ s.storeIndex
  store_le : s.storeIndex ≤ s.i
  i_le : s.i ≤ right - s.numPivots + 1
  one_le : 1 ≤ s.numPivots
  right_lt : right < buf0.length
  perm : s.buf.Perm buf0
  pivot : bufGet s.buf right = some p
  frame : ∀ k, (k < left ∨ right < k) → bufGet s.buf k = bufGet buf0 k
  seg : Seg left right s.buf buf0
  smaller : Holds s.buf left s.storeIndex (fun x => c (key x) (key p) < 0)
  greater : Holds s.buf s.storeIndex s.i (fun x => 0 < c (key x) (key p))
  equal : Holds s.buf (right - s.numPivots + 1) right (fun x => c (key x) (key p) = 0)

theorem PartInv.length {s : PartState ε} (h : PartInv c key left right buf0 p s) :
    s.buf.length = buf0.length :=
  h.perm.length_eq

/-- A turn of the split keeps its invariant, and brings `i` one closer to `right - num_pivots`. -/
theorem PartInv.step {s : PartState ε} (h : PartInv c key left right buf0 p s)
    (hi : s.i ≤ right - s.numPivots) :
    ∃ s', partitionStep c key right s = some s' ∧ PartInv c key left right buf0 p s' ∧
      right - s'.numPivots - s'.i = right - s.numPivots - s.i - 1 := by
  have hlen := h.length
  have hls := h.left_le
  have hsi := h.store_le
  have hnp := h.one_le
  have hr := h.right_lt
  have hl0 := h.left_nonneg
  have h0 : 0 ≤ s.i := by omega
  have hlt : s.i < s.buf.length := by omega
  obtain ⟨a, ha⟩ := Option.isSome_iff_exists.mp (bufGet_isSome h0 hlt)
  rcases lt_trichotomy (c (key a) (key p)) 0 with hneg | hzero | hpos
  · -- smaller: it goes to `store_index`, and the greater element there to `i`
    have hs0 : 0 ≤ s.storeIndex := by omega
    have hslt : s.storeIndex < s.buf.length := by omega
    refine ⟨⟨s.buf.swap s.i.toNat s.storeIndex.toNat, s.i + 1, s.storeIndex + 1, s.numPivots⟩,
      ?_, ?_, by simp only; omega⟩
    · simp only [partitionStep, ha, h.pivot, Option.bind_eq_bind, Option.bind_some,
        if_neg hneg.ne, if_pos hneg, bufSwap_eq h0 hlt hs0 hslt, Option.pure_def]
    refine ⟨hl0, by simp only; omega, by simp only; omega, by simp only; omega, hnp, hr,
      (List.swap_perm _ _ _).trans h.perm, ?_, ?_, ?_, ?_, ?_, ?_⟩
    · rw [bufGet_swap_of_ne h0 hlt hs0 hslt (by omega) (by omega), h.pivot]
    · intro k hk
      rw [bufGet_swap_of_ne h0 hlt hs0 hslt (by omega) (by omega), h.frame k hk]
    · exact h.seg.swap h0 hlt hs0 hslt ⟨by omega, by omega⟩ ⟨by omega, by omega⟩
    · refine Holds.append
        (h.smaller.swap_outside h0 hlt hs0 hslt (by omega) (by omega)) (holds_single fun x hx => ?_)
      rw [bufGet_swap_right h0 hlt hs0 hslt, ha] at hx
      exact Option.some.inj hx ▸ hneg
    · intro k x hk1 hk2 hx
      simp only at hk1 hk2
      by_cases hki : k = s.i
      · rw [hki, bufGet_swap_left h0 hlt hs0 hslt] at hx
        exact h.greater s.storeIndex x le_rfl (by omega) hx
      · rw [bufGet_swap_of_ne h0 hlt hs0 hslt hki (by omega)] at hx
        exact h.greater k x (by omega) (by omega) hx
    · exact h.equal.swap_outside h0 hlt hs0 hslt (by omega) (by omega)
  · -- equal: it joins the pivots, and the unread element before them comes to `i`
    have hq0 : 0 ≤ right - s.numPivots := by omega
    have hqlt : right - s.numPivots < s.buf.length := by omega
    refine ⟨⟨s.buf.swap s.i.toNat (right - s.numPivots).toNat, s.i, s.storeIndex, s.numPivots + 1⟩,
      ?_, ?_, by simp only; omega⟩
    · simp only [partitionStep, ha, h.pivot, Option.bind_eq_bind, Option.bind_some, if_pos hzero,
        bufSwap_eq h0 hlt hq0 hqlt, Option.pure_def]
    refine ⟨hl0, hls, hsi, by simp only; omega, by simp only; omega, hr,
      (List.swap_perm _ _ _).trans h.perm, ?_, ?_, ?_, ?_, ?_, ?_⟩
    · rw [bufGet_swap_of_ne h0 hlt hq0 hqlt (by omega) (by omega), h.pivot]
    · intro k hk
      rw [bufGet_swap_of_ne h0 hlt hq0 hqlt (by omega) (by omega), h.frame k hk]
    · exact h.seg.swap h0 hlt hq0 hqlt ⟨by omega, by omega⟩ ⟨by omega, by omega⟩
    · exact h.smaller.swap_outside h0 hlt hq0 hqlt (by omega) (by omega)
    · exact h.greater.swap_outside h0 hlt hq0 hqlt (by omega) (by omega)
    · show Holds _ (right - (s.numPivots + 1) + 1) right _
      rw [show right - (s.numPivots + 1) + 1 = right - s.numPivots by omega]
      refine Holds.append (holds_single fun x hx => ?_)
        (h.equal.swap_outside h0 hlt hq0 hqlt (by omega) (by omega))
      rw [bufGet_swap_right h0 hlt hq0 hqlt, ha] at hx
      exact Option.some.inj hx ▸ hzero
  · -- greater: it stays
    refine ⟨⟨s.buf, s.i + 1, s.storeIndex, s.numPivots⟩, ?_, ?_, by simp only; omega⟩
    · simp only [partitionStep, ha, h.pivot, Option.bind_eq_bind, Option.bind_some,
        if_neg hpos.ne', if_neg (not_lt.mpr hpos.le), Option.pure_def]
    refine ⟨hl0, hls, by simp only; omega, by simp only; omega, hnp, hr, h.perm, h.pivot, h.frame,
      h.seg, h.smaller, ?_, h.equal⟩
    exact Holds.append h.greater (holds_single fun x hx => by
      rw [ha] at hx
      exact Option.some.inj hx ▸ hpos)

variable (c key) in
/-- The split starts with nothing placed and the pivot at `right`. -/
theorem PartInv.start (h0 : 0 ≤ left) (hlr : left ≤ right) (hr : right < buf0.length)
    (hp : bufGet buf0 right = some p) : PartInv c key left right buf0 p ⟨buf0, left, left, 1⟩ where
  left_nonneg := h0
  left_le := le_rfl
  store_le := le_rfl
  i_le := by simp only; omega
  one_le := le_rfl
  right_lt := hr
  perm := List.Perm.refl _
  pivot := hp
  frame := fun _ _ => rfl
  seg := seg_refl left right buf0
  smaller := fun _ _ h1 h2 _ => absurd h2 (not_lt.mpr h1)
  greater := fun _ _ h1 h2 _ => absurd h2 (not_lt.mpr h1)
  equal := fun _ _ h1 h2 _ => by simp only at h1; omega

/-- **The split ends** within `right - num_pivots - i + 1` turns, with every element read and its
invariant holding. -/
theorem partitionLoop_spec :
    ∀ fuel (s : PartState ε), PartInv c key left right buf0 p s →
      (right - s.numPivots - s.i + 1).toNat ≤ fuel →
      ∃ s', partitionLoop c key right fuel s = some s' ∧ PartInv c key left right buf0 p s' ∧
        s'.i = right - s'.numPivots + 1 := by
  intro fuel
  induction fuel with
  | zero =>
    intro s h hfuel
    have hi : ¬s.i ≤ right - s.numPivots := by omega
    exact ⟨s, by rw [partitionLoop, if_neg hi], h, by have := h.i_le; omega⟩
  | succ fuel ih =>
    intro s h hfuel
    by_cases hi : s.i ≤ right - s.numPivots
    · obtain ⟨s', hstep, h', hmeasure⟩ := h.step hi
      obtain ⟨s'', hrun, h'', hend⟩ := ih s' h' (by omega)
      exact ⟨s'', by rw [partitionLoop, if_pos hi, hstep, Option.bind_some, hrun], h'', hend⟩
    · exact ⟨s, by rw [partitionLoop, if_neg hi], h, by have := h.i_le; omega⟩

end Split

/-! ## Moving the pivots -/

section Move

variable {store right np t : ℤ} {E G : ε → Prop} {buf : List ε}

/-- Which places of `store..right` hold greater elements after `t` turns of the loop that moves
the pivots: none of the first `t`; of the last `t`, those swapped from the greater block; in
between, the greater block as the split left it. -/
def MovedGreater (store right np t k : ℤ) : Prop :=
  ¬k < store + t ∧ (right - t < k → right - k < right - np + 1 - store) ∧
    (k ≤ right - t → k < right - np + 1)

/-- The invariant of the loop that moves the pivots, after `t` turns: each place of `store..right`
holds a greater element (`G`) where `MovedGreater` says so and a pivot (`E`) elsewhere. -/
def MoveInv (E G : ε → Prop) (store right np t : ℤ) (buf : List ε) : Prop :=
  ∀ k x, store ≤ k → k ≤ right → bufGet buf k = some x →
    (MovedGreater store right np t k → G x) ∧ (¬MovedGreater store right np t k → E x)

/-- Before the loop, the split has left the greater elements and then the pivots. -/
theorem moveInv_start (hG : Holds buf store (right - np + 1) G)
    (hE : Holds buf (right - np + 1) (right + 1) E) : MoveInv E G store right np 0 buf := by
  intro k x h1 h2 hx
  refine ⟨fun hmg => hG k x h1 ?_ hx, fun hmg => hE k x ?_ (by omega) hx⟩ <;>
    unfold MovedGreater at hmg <;> omega

/-- Moving a fact along a place whose side does not change. -/
theorem MoveInv.transfer {t' k k' : ℤ} (h : MoveInv E G store right np t buf) {x : ε}
    (hk' : store ≤ k' ∧ k' ≤ right) (hx : bufGet buf k' = some x)
    (hiff : MovedGreater store right np t' k ↔ MovedGreater store right np t k') :
    (MovedGreater store right np t' k → G x) ∧ (¬MovedGreater store right np t' k → E x) := by
  obtain ⟨hG, hE⟩ := h k' x hk'.1 hk'.2 hx
  exact ⟨fun h' => hG (hiff.mp h'), fun h' => hE fun h'' => h' (hiff.mpr h'')⟩

/-- A turn swaps the place `store + t` with `right - t`: a pivot comes to the front, and the
element it displaces goes where the pivot was. -/
theorem MoveInv.swap (h : MoveInv E G store right np t buf) (ht0 : 0 ≤ t) (ht : t < np)
    (hmeet : store + t < right - t) (hs0 : 0 ≤ store) (hr : right < buf.length) :
    MoveInv E G store right np (t + 1) (buf.swap (store + t).toNat (right - t).toNat) := by
  intro k x h1 h2 hx
  rw [bufGet_swap (by omega) (by omega) (by omega) (by omega)] at hx
  split_ifs at hx with hka hkb
  · exact h.transfer ⟨by omega, by omega⟩ hx (by unfold MovedGreater; omega)
  · exact h.transfer ⟨by omega, by omega⟩ hx (by unfold MovedGreater; omega)
  · exact h.transfer ⟨h1, h2⟩ hx (by unfold MovedGreater; omega)

/-- Where the loop stops, the pivots fill `store..store + np` and the greater elements the rest. -/
theorem MoveInv.final (h : MoveInv E G store right np t buf) (hstop : t = np ∨ right - t ≤ store + t)
    (ht0 : 0 ≤ t) (ht : t ≤ np) (hmeet : store + t ≤ right - t + 1) (hg : store ≤ right - np + 1) :
    Holds buf store (store + np) E ∧ Holds buf (store + np) (right + 1) G := by
  refine ⟨fun k x h1 h2 hx => (h k x h1 (by omega) hx).2 ?_,
    fun k x h1 h2 hx => (h k x (by omega) (by omega) hx).1 ?_⟩ <;> unfold MovedGreater <;> omega

/-- **The loop that moves the pivots** ends within `np - t` more turns, with the pivots in front
of the greater elements, having only swapped places of `store..right`. -/
theorem moveLoop_spec (hs0 : 0 ≤ store) (hg : store ≤ right - np + 1) :
    ∀ fuel t (buf : List ε), right < buf.length → 0 ≤ t → t ≤ np → store + t ≤ right - t + 1 →
      (np - t).toNat ≤ fuel → MoveInv E G store right np t buf →
      ∃ buf', moveLoop right np fuel buf (right - t) (store + t) = some buf' ∧ buf'.Perm buf ∧
        (∀ k, (k < store ∨ right < k) → bufGet buf' k = bufGet buf k) ∧ Seg store right buf' buf ∧
        Holds buf' store (store + np) E ∧ Holds buf' (store + np) (right + 1) G := by
  intro fuel
  induction fuel with
  | zero =>
    intro t buf hr ht0 ht hmeet hfuel h
    have hstop : ¬(right - np < right - t ∧ store + t < right - t) := by omega
    refine ⟨buf, by rw [moveLoop, if_neg hstop], List.Perm.refl _, fun _ _ => rfl,
      seg_refl _ _ _, h.final (by omega) ht0 ht hmeet hg⟩
  | succ fuel ih =>
    intro t buf hr ht0 ht hmeet hfuel h
    by_cases hmore : right - np < right - t
    · by_cases hdone : right - t ≤ store + t
      · exact ⟨buf, by rw [moveLoop, if_pos hmore, if_pos hdone], List.Perm.refl _, fun _ _ => rfl,
          seg_refl _ _ _, h.final (.inr hdone) ht0 ht hmeet hg⟩
      · -- swap the front of the greater block with the pivot at `right - t`, and go on
        have hsw : bufSwap buf (store + t) (right - t) =
            some (buf.swap (store + t).toNat (right - t).toNat) :=
          bufSwap_eq (by omega) (by omega) (by omega) (by omega)
        obtain ⟨buf', hrun, hperm, hframe, hseg, hE, hG⟩ := ih (t + 1) _
          (by rw [List.length_swap]; exact hr) (by omega) (by omega) (by omega) (by omega)
          (h.swap ht0 (by omega) (by omega) hs0 hr)
        refine ⟨buf', ?_, hperm.trans (List.swap_perm _ _ _), fun k hk => ?_,
          hseg.trans (seg_refl _ _ _ |>.swap (by omega) (by omega) (by omega) (by omega)
            ⟨by omega, by omega⟩ ⟨by omega, by omega⟩), hE, hG⟩
        · rw [moveLoop, if_pos hmore, if_neg hdone, hsw, Option.bind_eq_bind, Option.bind_some,
            show right - t - 1 = right - (t + 1) by omega, show store + t + 1 = store + (t + 1) by omega,
            hrun]
        · rw [hframe k hk, bufGet_swap_of_ne (by omega) (by omega) (by omega) (by omega) (by omega)
            (by omega)]
    · exact ⟨buf, by rw [moveLoop, if_neg hmore], List.Perm.refl _, fun _ _ => rfl,
        seg_refl _ _ _, h.final (by omega) ht0 ht hmeet hg⟩

end Move

/-! ## One turn of the quickselect -/

section Round

variable {c : κ → κ → ℤ} {key : ε → κ} {buf : List ε} {left right : ℤ}

/-- What a turn of `nmin_filter` on `left..right` leaves, around the pivot `p`: the smaller
elements in `left..store`, the `np ≥ 1` pivots (equal to `p`, or `p` itself) next, and the greater
elements up to `right`, having only permuted `left..right`. -/
structure RoundFacts (c : κ → κ → ℤ) (key : ε → κ) (left right : ℤ) (buf buf' : List ε)
    (store np : ℤ) (p : ε) : Prop where
  perm : buf'.Perm buf
  left_le : left ≤ store
  one_le : 1 ≤ np
  le_right : store + np ≤ right + 1
  frame : ∀ k, (k < left ∨ right < k) → bufGet buf' k = bufGet buf k
  seg : Seg left right buf' buf
  smaller : Holds buf' left store (fun x => c (key x) (key p) < 0)
  pivots : Holds buf' store (store + np) (fun x => c (key x) (key p) = 0 ∨ x = p)
  greater : Holds buf' (store + np) (right + 1) (fun x => 0 < c (key x) (key p))

variable (c key) in
/-- **A turn of `nmin_filter`** on `left..right` within the buffer ends, and splits it. -/
theorem filterRound_spec (h0 : 0 ≤ left) (hlr : left ≤ right) (hr : right < buf.length) :
    ∃ p buf' store np, filterRound c key buf left right = some (buf', store, np) ∧
      RoundFacts c key left right buf buf' store np p := by
  -- the middle element is swapped to `right`
  have hmid : left ≤ left + (right - left).tdiv 2 ∧ left + (right - left).tdiv 2 ≤ right := by
    rw [Int.tdiv_eq_ediv_of_nonneg (by omega)]
    omega
  have hm0 : 0 ≤ left + (right - left).tdiv 2 := by omega
  have hmlt : left + (right - left).tdiv 2 < buf.length := by omega
  set b1 := buf.swap (left + (right - left).tdiv 2).toNat right.toNat with hb1
  have hlen1 : b1.length = buf.length := List.length_swap
  obtain ⟨p, hp⟩ := Option.isSome_iff_exists.mp
    (bufGet_isSome (by omega) (by omega) : (bufGet b1 right).isSome)
  -- the split
  obtain ⟨s, hsplit, hs, hend⟩ := partitionLoop_spec b1.length _
    (PartInv.start c key h0 hlr (by omega) hp) (by simp only; omega)
  have hslen := hs.length
  have hls := hs.left_le
  have hsi := hs.store_le
  have hnp := hs.one_le
  -- the pivots moved after the smaller elements
  have hstart : MoveInv (fun x => c (key x) (key p) = 0 ∨ x = p) (fun x => 0 < c (key x) (key p))
      s.storeIndex right s.numPivots 0 s.buf :=
    moveInv_start (hend ▸ hs.greater)
      (Holds.append (hs.equal.of_imp fun _ h => .inl h)
        (holds_single fun x hx => .inr (Option.some.inj (hs.pivot ▸ hx).symm)))
  obtain ⟨buf', hmove, hperm, hframe, hseg, hE, hG⟩ :=
    moveLoop_spec (by omega) (by omega) s.buf.length 0 s.buf (by omega) le_rfl
      (by omega) (by omega) (by omega) hstart
  refine ⟨p, buf', s.storeIndex, s.numPivots, ?_, ?_, hls, hnp, by omega, fun k hk => ?_, ?_,
    ?_, hE, hG⟩
  · simp only [filterRound, bufSwap_eq hm0 hmlt (by omega) hr, Option.bind_eq_bind,
      Option.bind_some, hsplit, ← hb1]
    rw [show right - 0 = right by omega, show s.storeIndex + 0 = s.storeIndex by omega] at hmove
    rw [hmove]
    rfl
  · exact hperm.trans (hs.perm.trans (List.swap_perm _ _ _))
  · rw [hframe k (by omega), hs.frame k hk,
      bufGet_swap_of_ne hm0 hmlt (by omega) hr (by omega) (by omega)]
  · refine (hseg.widen hls le_rfl hframe |>.trans hs.seg).trans ?_
    exact (seg_refl _ _ _).swap hm0 hmlt (by omega) hr ⟨hmid.1, hmid.2⟩ ⟨hlr, le_rfl⟩
  · intro k x h1 h2 hx
    rw [hframe k (by omega)] at hx
    exact hs.smaller k x h1 h2 hx

/-- Every element after a turn was at a place on the same sides of `left` and `right` before it. -/
theorem RoundFacts.old_place {store np : ℤ} {p : ε} {buf' : List ε}
    (h : RoundFacts c key left right buf buf' store np p) {b : ℤ} {y : ε} (hy : bufGet buf' b = some y) :
    ∃ b', bufGet buf b' = some y ∧ (left ≤ b ↔ left ≤ b') ∧ (b ≤ right ↔ b' ≤ right) := by
  by_cases hb : left ≤ b ∧ b ≤ right
  · obtain ⟨b', h1, h2, hy'⟩ := h.seg b y hb.1 hb.2 hy
    exact ⟨b', hy', by omega, by omega⟩
  · exact ⟨b, (h.frame b (by omega)) ▸ hy, Iff.rfl, Iff.rfl⟩

end Round

/-! ## The quickselect -/

/-- `cmp` compares by the total preorder `le`: `cmp a b ≤ 0` exactly when `le a b`, and
`0 ≤ cmp a b` exactly when `le b a`. -/
structure TotalPreorderCmp (cmp : κ → κ → ℤ) (le : κ → κ → Prop) : Prop where
  nonpos_iff : ∀ a b, cmp a b ≤ 0 ↔ le a b
  nonneg_iff : ∀ a b, 0 ≤ cmp a b ↔ le b a
  trans : ∀ a b c, le a b → le b c → le a c

theorem TotalPreorderCmp.refl {cmp : κ → κ → ℤ} {le : κ → κ → Prop} (h : TotalPreorderCmp cmp le)
    (a : κ) : le a a := by
  rcases le_total (cmp a a) 0 with h' | h'
  · exact (h.nonpos_iff a a).mp h'
  · exact (h.nonneg_iff a a).mp h'

theorem TotalPreorderCmp.total {cmp : κ → κ → ℤ} {le : κ → κ → Prop}
    (h : TotalPreorderCmp cmp le) (a b : κ) : le a b ∨ le b a := by
  rcases le_total (cmp a b) 0 with h' | h'
  · exact .inl ((h.nonpos_iff a b).mp h')
  · exact .inr ((h.nonneg_iff a b).mp h')

/-- The order `revCmp cmp rev` compares by: `le`, turned around for `max`. -/
def revLe (le : κ → κ → Prop) (rev : Bool) (a b : κ) : Prop :=
  if rev then le b a else le a b

/-- The comparison negated for `max` compares by the reversed preorder. -/
theorem TotalPreorderCmp.revCmp {cmp : κ → κ → ℤ} {le : κ → κ → Prop}
    (h : TotalPreorderCmp cmp le) : ∀ rev, TotalPreorderCmp (revCmp cmp rev) (revLe le rev)
  | false => h
  | true =>
    { nonpos_iff := fun a b => by
        rw [CRuby.Enum.revCmp, revLe, if_pos rfl, if_pos rfl, neg_nonpos, h.nonneg_iff]
      nonneg_iff := fun a b => by
        rw [CRuby.Enum.revCmp, revLe, if_pos rfl, if_pos rfl, neg_nonneg, h.nonpos_iff]
      trans := fun a b c hab hbc => h.trans c b a hbc hab }

section Select

variable {c : κ → κ → ℤ} {key : ε → κ} {n : ℤ}

variable (c key) in
/-- **The quickselect ends, for every comparison, touching only places of the buffer**: from
`0 ≤ left ≤ n ≤ right` within the buffer it ends within `right - left + 1` turns, on a
`store_index` at most `n`. -/
theorem filterLoop_bounds :
    ∀ fuel (buf : List ε) left right, 0 ≤ left → left ≤ n → n ≤ right → right < buf.length →
      (right - left + 1).toNat ≤ fuel →
      ∃ buf' store, filterLoop c key n fuel buf left right = some (buf', store) ∧
        buf'.Perm buf ∧ left ≤ store ∧ store ≤ n := by
  intro fuel
  induction fuel with
  | zero => intro buf left right _ h1 h2 _ hfuel; omega
  | succ fuel ih =>
    intro buf left right h0 h1 h2 hr hfuel
    obtain ⟨p, buf1, st, np, hround, hf⟩ := filterRound_spec c key h0 (by omega) hr
    have hst := hf.left_le
    have hnp := hf.one_le
    have hle := hf.le_right
    have hlen : buf1.length = buf.length := hf.perm.length_eq
    simp only [filterLoop, hround, Option.bind_eq_bind, Option.bind_some]
    by_cases hbreak : st ≤ n ∧ n ≤ st + np
    · exact ⟨buf1, st, by rw [if_pos hbreak]; rfl, hf.perm, hst, hbreak.1⟩
    · rw [if_neg hbreak]
      by_cases hlow : n < st
      · -- on among the smaller elements
        rw [if_pos hlow]
        obtain ⟨buf', st', hrun, hperm, h1', h2'⟩ :=
          ih buf1 left (st - 1) h0 h1 (by omega) (by omega) (by omega)
        exact ⟨buf', st', hrun, hperm.trans hf.perm, h1', h2'⟩
      · -- on among the greater elements
        rw [if_neg hlow]
        obtain ⟨buf', st', hrun, hperm, h1', h2'⟩ :=
          ih buf1 (st + np) right (by omega) (by omega) h2 (by omega) (by omega)
        exact ⟨buf', st', hrun, hperm.trans hf.perm, by omega, h2'⟩

variable {le : κ → κ → Prop}

/-- The quickselect's invariant between turns: the elements before `left` are at or below every
element from `left` on, those up to `right` at or below every element after `right`, and `n` lies
in `left..right`. -/
structure FilterInv (le : κ → κ → Prop) (key : ε → κ) (buf0 : List ε) (n left right : ℤ)
    (buf : List ε) : Prop where
  perm : buf.Perm buf0
  left_nonneg : 0 ≤ left
  left_le : left ≤ n
  le_right : n ≤ right
  right_lt : right < buf0.length
  below : ∀ a b x y, a < left → left ≤ b → bufGet buf a = some x → bufGet buf b = some y →
    le (key x) (key y)
  above : ∀ a b x y, a ≤ right → right < b → bufGet buf a = some x → bufGet buf b = some y →
    le (key x) (key y)

theorem FilterInv.start (h : 0 ≤ n) (hn : n < buf0.length) :
    FilterInv le key buf0 n 0 (buf0.length - 1) buf0 where
  perm := List.Perm.refl _
  left_nonneg := le_rfl
  left_le := h
  le_right := by omega
  right_lt := by omega
  below a _ x _ ha _ hx := by rw [bufGet_eq_none (.inl ha)] at hx; cases hx
  above _ b _ y _ hb _ hy := by rw [bufGet_eq_none (.inr (by omega))] at hy; cases hy

section Turn

variable {buf0 buf buf' : List ε} {left right store np : ℤ} {p : ε}
  (hc : TotalPreorderCmp c le) (h : FilterInv le key buf0 n left right buf)
  (hf : RoundFacts c key left right buf buf' store np p)

section
include hc hf

/-- The smaller elements and the pivots are at or below the pivot. -/
theorem RoundFacts.le_pivot {a : ℤ} {x : ε} (h1 : left ≤ a) (h2 : a < store + np)
    (hx : bufGet buf' a = some x) : le (key x) (key p) := by
  rcases lt_or_ge a store with ha | ha
  · exact (hc.nonpos_iff _ _).mp (hf.smaller a x h1 ha hx).le
  · rcases hf.pivots a x ha h2 hx with hx' | rfl
    · exact (hc.nonpos_iff _ _).mp hx'.le
    · exact hc.refl _

/-- The pivots and the greater elements are at or above the pivot. -/
theorem RoundFacts.pivot_le {b : ℤ} {y : ε} (h1 : store ≤ b) (h2 : b ≤ right)
    (hy : bufGet buf' b = some y) : le (key p) (key y) := by
  rcases lt_or_ge b (store + np) with hb | hb
  · rcases hf.pivots b y h1 hb hy with hy' | rfl
    · exact (hc.nonneg_iff _ _).mp hy'.ge
    · exact hc.refl _
  · exact (hc.nonneg_iff _ _).mp (hf.greater b y hb (by omega) hy).le

end

section
include h hf

/-- The order of the part before `left` and after `right` with the rest survives a turn. -/
theorem FilterInv.below_round {a b : ℤ} {x y : ε} (ha : a < left) (hb : left ≤ b)
    (hx : bufGet buf' a = some x) (hy : bufGet buf' b = some y) : le (key x) (key y) := by
  obtain ⟨a', hx', ha', -⟩ := hf.old_place hx
  obtain ⟨b', hy', hb', -⟩ := hf.old_place hy
  exact h.below a' b' x y (by omega) (hb'.mp hb) hx' hy'

theorem FilterInv.above_round {a b : ℤ} {x y : ε} (ha : a ≤ right) (hb : right < b)
    (hx : bufGet buf' a = some x) (hy : bufGet buf' b = some y) : le (key x) (key y) := by
  obtain ⟨a', hx', -, ha'⟩ := hf.old_place hx
  obtain ⟨b', hy', -, hb'⟩ := hf.old_place hy
  exact h.above a' b' x y (ha'.mp ha) (by omega) hx' hy'

end

include hc h hf

/-- A turn that goes on among the smaller elements keeps the invariant on `left..store - 1`. -/
theorem FilterInv.round_low (hn : n < store) : FilterInv le key buf0 n left (store - 1) buf' := by
  have := hf.left_le; have := hf.one_le; have := hf.le_right; have := h.right_lt
  refine ⟨hf.perm.trans h.perm, h.left_nonneg, h.left_le, by omega, by omega,
    fun a b x y ha hb hx hy => h.below_round hf ha hb hx hy, fun a b x y ha hb hx hy => ?_⟩
  -- a pair across `store - 1`: by where each of the two lies
  rcases lt_or_ge a left with ha' | ha'
  · exact h.below_round hf ha' (by omega) hx hy
  rcases le_or_gt b right with hb' | hb'
  · exact hc.trans _ _ _ (hf.le_pivot hc ha' (by omega) hx) (hf.pivot_le hc (by omega) hb' hy)
  · exact h.above_round hf (by omega) hb' hx hy

/-- A turn that goes on among the greater elements keeps the invariant on `store + np..right`. -/
theorem FilterInv.round_high (hn : store + np < n) :
    FilterInv le key buf0 n (store + np) right buf' := by
  have := hf.left_le; have := hf.one_le; have := hf.le_right; have := h.left_nonneg
  refine ⟨hf.perm.trans h.perm, by omega, by omega, h.le_right, h.right_lt,
    fun a b x y ha hb hx hy => ?_, fun a b x y ha hb hx hy => h.above_round hf ha hb hx hy⟩
  -- a pair across `store + np`: by where each of the two lies
  rcases lt_or_ge a left with ha' | ha'
  · exact h.below_round hf ha' (by omega) hx hy
  rcases le_or_gt b right with hb' | hb'
  · exact hc.trans _ _ _ (hf.le_pivot hc ha' ha hx) (hf.pivot_le hc (by omega) hb' hy)
  · exact h.above_round hf (by omega) hb' hx hy

/-- A turn that ends with `n` among the pivots leaves the `n` smallest in front, at or below the
element at `store`, and the others at or above it. -/
theorem FilterInv.round_final (hn : store ≤ n ∧ n ≤ store + np) :
    ∃ x, bufGet buf' store = some x ∧
      (∀ a y, a < n → bufGet buf' a = some y → le (key y) (key x)) ∧
      (∀ b y, n ≤ b → bufGet buf' b = some y → le (key x) (key y)) := by
  have hr := h.right_lt
  have hst : store ≤ right := by have := h.le_right; omega
  have hlen : buf'.length = buf0.length := hf.perm.length_eq.trans h.perm.length_eq
  obtain ⟨x, hx⟩ := Option.isSome_iff_exists.mp
    (bufGet_isSome (by have := h.left_nonneg; have := hf.left_le; omega) (by omega) :
      (bufGet buf' store).isSome)
  have hxp : le (key x) (key p) := hf.le_pivot hc hf.left_le (by have := hf.one_le; omega) hx
  have hpx : le (key p) (key x) := hf.pivot_le hc le_rfl hst hx
  refine ⟨x, hx, fun a y ha hy => ?_, fun b y hb hy => ?_⟩
  · rcases lt_or_ge a left with ha' | ha'
    · exact h.below_round hf ha' hf.left_le hy hx
    · exact hc.trans _ _ _ (hf.le_pivot hc ha' (by omega) hy) hpx
  · rcases le_or_gt b right with hb' | hb'
    · exact hc.trans _ _ _ hxp (hf.pivot_le hc (by omega) hb' hy)
    · exact h.above_round hf hst hb' hx hy

end Turn

/-- **The quickselect**, for a comparison by a total preorder: it ends with the `n` smallest in
front, at or below the element at `store_index`, and the others at or above it. -/
theorem filterLoop_spec {buf0 : List ε} (hc : TotalPreorderCmp c le) :
    ∀ fuel (buf : List ε) left right, FilterInv le key buf0 n left right buf →
      (right - left + 1).toNat ≤ fuel →
      ∃ buf' store x, filterLoop c key n fuel buf left right = some (buf', store) ∧
        buf'.Perm buf0 ∧ bufGet buf' store = some x ∧
        (∀ a y, a < n → bufGet buf' a = some y → le (key y) (key x)) ∧
        (∀ b y, n ≤ b → bufGet buf' b = some y → le (key x) (key y)) := by
  intro fuel
  induction fuel with
  | zero => intro buf left right h hfuel; have := h.left_le; have := h.le_right; omega
  | succ fuel ih =>
    intro buf left right h hfuel
    have hr : right < buf.length := by have := h.perm.length_eq; have := h.right_lt; omega
    obtain ⟨p, buf1, st, np, hround, hf⟩ := filterRound_spec c key
      h.left_nonneg (by have := h.left_le; have := h.le_right; omega) hr
    simp only [filterLoop, hround, Option.bind_eq_bind, Option.bind_some]
    by_cases hbreak : st ≤ n ∧ n ≤ st + np
    · obtain ⟨x, hx, hbelow, habove⟩ := h.round_final hc hf hbreak
      exact ⟨buf1, st, x, by rw [if_pos hbreak]; rfl, hf.perm.trans h.perm, hx, hbelow, habove⟩
    · rw [if_neg hbreak]
      by_cases hlow : n < st
      · rw [if_pos hlow]
        exact ih buf1 left (st - 1) (h.round_low hc hf hlow)
          (by have := h.left_le; have := hf.le_right; have := hf.one_le; omega)
      · rw [if_neg hlow]
        exact ih buf1 (st + np) right (h.round_high hc hf (by omega))
          (by have := hf.left_le; have := hf.one_le; omega)

end Select


/-! ## `nmin_filter` as a whole -/

section FilterSpec

variable {c : κ → κ → ℤ} {key : ε → κ} {d : NminData ε κ}

theorem bufGet_natCast (buf : List ε) (i : ℕ) : bufGet buf i = buf[i]? := by
  simp [bufGet]

theorem bufGet_mem {buf : List ε} {k : ℤ} {x : ε} (h : bufGet buf k = some x) : x ∈ buf := by
  unfold bufGet at h
  split_ifs at h
  exact List.mem_of_getElem? h

/-- An element of the first `m` of the buffer is at a place below `m`. -/
theorem exists_bufGet_of_mem_take {buf : List ε} {m : ℕ} {y : ε} (hy : y ∈ buf.take m) :
    ∃ a : ℤ, a < m ∧ bufGet buf a = some y := by
  obtain ⟨i, hi⟩ := List.mem_iff_getElem?.mp hy
  rw [List.getElem?_take] at hi
  split_ifs at hi with him
  exact ⟨i, by exact_mod_cast him, by rw [bufGet_natCast]; exact hi⟩

/-- An element after the first `m` of the buffer is at a place from `m` on. -/
theorem exists_bufGet_of_mem_drop {buf : List ε} {m : ℕ} {y : ε} (hy : y ∈ buf.drop m) :
    ∃ a : ℤ, m ≤ a ∧ bufGet buf a = some y := by
  obtain ⟨i, hi⟩ := List.mem_iff_getElem?.mp hy
  rw [List.getElem?_drop] at hi
  exact ⟨(m + i : ℕ), by omega, by rw [bufGet_natCast]; exact hi⟩

theorem nminFilter_of_le (h : (d.buf.length : ℤ) ≤ d.n) : nminFilter c key d = some d := by
  rw [nminFilter, if_pos h]

theorem nminFilter_of_lt {buf : List ε} {store : ℤ} {l : ε} (h : d.n < d.buf.length)
    (hrun : filterLoop c key d.n d.buf.length d.buf 0 (d.buf.length - 1) = some (buf, store))
    (hl : bufGet buf store = some l) :
    nminFilter c key d = some { d with buf := buf.take d.n.toNat, limit := some (key l) } := by
  rw [nminFilter, if_neg (not_le.mpr h)]
  simp only [hrun, hl, Option.bind_eq_bind, Option.bind_some, Option.pure_def]

variable (c key) in
/-- **`nmin_filter` ends for every comparison**, reading and swapping only places of the buffer:
the model, which gives `none` on a place outside it and when a loop runs out of turns, gives an
answer, with `n` as it was. -/
theorem nminFilter_ends (h0 : 0 ≤ d.n) : ∃ d', nminFilter c key d = some d' ∧ d'.n = d.n := by
  by_cases hle : (d.buf.length : ℤ) ≤ d.n
  · exact ⟨d, nminFilter_of_le hle, rfl⟩
  obtain ⟨buf, store, hrun, hperm, hs0, hs⟩ := filterLoop_bounds c key
    d.buf.length d.buf 0 (d.buf.length - 1) le_rfl h0 (by omega) (by omega) (by omega)
  have hlen := hperm.length_eq
  obtain ⟨l, hl⟩ := Option.isSome_iff_exists.mp
    (bufGet_isSome hs0 (by omega) : (bufGet buf store).isSome)
  exact ⟨_, nminFilter_of_lt (by omega) hrun hl, rfl⟩

variable {le : κ → κ → Prop}

/-- **`nmin_filter`**, for a comparison by a total preorder, on more than `n` elements: it keeps
`n` of them, all at or below the pivot `l` it ends on, which becomes `limit`, and leaves out
elements at or above it. -/
theorem nminFilter_spec (hc : TotalPreorderCmp c le) (h0 : 0 ≤ d.n) (hlt : d.n < d.buf.length) :
    ∃ l kept rest, nminFilter c key d = some { d with buf := kept, limit := some (key l) } ∧
      l ∈ d.buf ∧ kept.length = d.n.toNat ∧ (kept ++ rest).Perm d.buf ∧
      (∀ x ∈ kept, le (key x) (key l)) ∧ ∀ y ∈ rest, le (key l) (key y) := by
  obtain ⟨buf, store, l, hrun, hperm, hl, hbelow, habove⟩ := filterLoop_spec hc
    d.buf.length d.buf 0 (d.buf.length - 1) (FilterInv.start h0 hlt) (by omega)
  refine ⟨l, buf.take d.n.toNat, buf.drop d.n.toNat, nminFilter_of_lt hlt hrun hl,
    hperm.mem_iff.mp (bufGet_mem hl), ?_, by rw [List.take_append_drop]; exact hperm,
    fun x hx => ?_, fun y hy => ?_⟩
  · rw [List.length_take, hperm.length_eq]
    omega
  · obtain ⟨a, ha, hxa⟩ := exists_bufGet_of_mem_take hx
    exact hbelow a x (by omega) hxa
  · obtain ⟨b, hb, hyb⟩ := exists_bufGet_of_mem_drop hy
    exact habove b y (by omega) hyb

end FilterSpec

/-! ## The enumeration -/

/-- What `limit` says of the buffer `buf` and of the elements `rest` left out so far: with no
`limit` nothing is left out yet; with one, the buffer is at or below it and `rest` at or above. -/
def Kept (le : κ → κ → Prop) (key : ε → κ) (buf rest : List ε) : Option κ → Prop
  | none => rest = []
  | some l => (∀ x ∈ buf, le (key x) l) ∧ ∀ y ∈ rest, le l (key y)

section Kept

variable {le : κ → κ → Prop} {key : ε → κ} {buf rest : List ε} {limit : Option κ}

/-- Every element kept is at or below every element left out. -/
theorem Kept.le_rest (htrans : ∀ a b c, le a b → le b c → le a c)
    (h : Kept le key buf rest limit) : ∀ x ∈ buf, ∀ y ∈ rest, le (key x) (key y) := by
  intro x hx y hy
  cases limit with
  | none => rw [show rest = [] from h] at hy; cases hy
  | some l => exact htrans _ _ _ (h.1 x hx) (h.2 y hy)

/-- `nmin_i` appends an element below `limit`. -/
theorem Kept.push {x : ε} (h : Kept le key buf rest limit)
    (hx : ∀ l, limit = some l → le (key x) l) : Kept le key (buf ++ [x]) rest limit := by
  cases limit with
  | none => exact h
  | some l =>
    refine ⟨fun y hy => ?_, h.2⟩
    rcases List.mem_append.mp hy with hy | hy
    · exact h.1 y hy
    · rw [List.mem_singleton.mp hy]; exact hx l rfl

/-- `nmin_i` drops an element at or above `limit`. -/
theorem Kept.skip {x : ε} {l : κ} (h : Kept le key buf rest (some l)) (hx : le l (key x)) :
    Kept le key buf (rest ++ [x]) (some l) := by
  refine ⟨h.1, fun y hy => ?_⟩
  rcases List.mem_append.mp hy with hy | hy
  · exact h.2 y hy
  · rw [List.mem_singleton.mp hy]; exact hx

/-- `nmin_filter` keeps `kept` at or below its pivot `l` and leaves out `dropped` at or above it;
the new `limit` is below the old one, as `l` was in the buffer. -/
theorem Kept.filter (htrans : ∀ a b c, le a b → le b c → le a c) {l : ε} {kept dropped : List ε}
    (h : Kept le key buf rest limit) (hl : l ∈ buf) (hkept : ∀ x ∈ kept, le (key x) (key l))
    (hdropped : ∀ y ∈ dropped, le (key l) (key y)) :
    Kept le key kept (dropped ++ rest) (some (key l)) := by
  refine ⟨hkept, fun y hy => ?_⟩
  rcases List.mem_append.mp hy with hy | hy
  · exact hdropped y hy
  · cases limit with
    | none => rw [show rest = [] from h] at hy; cases hy
    | some l' => exact htrans _ _ _ (h.1 l hl) (h.2 y hy)

end Kept

/-- The state of `rb_nmin_run` after the elements `ys` (as kept by the buffer): `n` and `bufmax`
as set, the buffer short of `bufmax`, at least `n` long once there is a `limit`, and with the
elements left out a permutation of `ys`, in the order `Kept` says. -/
structure StreamInv (le : κ → κ → Prop) (key : ε → κ) (n : ℤ) (ys : List ε)
    (d : NminData ε κ) : Prop where
  n_eq : d.n = n
  bufmax_eq : d.bufmax = n * 4
  lt_bufmax : (d.buf.length : ℤ) < n * 4
  full : d.limit.isSome → n ≤ d.buf.length
  kept : ∃ rest, (d.buf ++ rest).Perm ys ∧ Kept le key d.buf rest d.limit

section Stream

variable {c : κ → κ → ℤ} {le : κ → κ → Prop} {key : ε → κ} {elt : α → ε} {n : ℤ}
  {d : NminData ε κ} {x : α}

theorem nminI_of_ge {l : κ} (hl : d.limit = some l) (h : 0 ≤ c (key (elt x)) l) :
    nminI c key elt d x = some d := by
  rw [nminI, if_pos (by rw [hl, Option.map_some, decide_eq_true h])]

theorem nminI_of_lt (h : ∀ l, d.limit = some l → c (key (elt x)) l < 0) :
    nminI c key elt d x =
      if ((d.buf ++ [elt x]).length : ℤ) = d.bufmax then
        nminFilter c key { d with buf := d.buf ++ [elt x] }
      else some { d with buf := d.buf ++ [elt x] } := by
  have hkeep : d.limit.map (fun l => decide (0 ≤ c (key (elt x)) l)) ≠ some true := by
    cases hl : d.limit with
    | none => simp
    | some l => simp [not_le.mpr (h l hl)]
  rw [nminI, if_neg hkeep]

theorem StreamInv.start (hn : 1 ≤ n) : StreamInv le key n [] ⟨n, n * 4, [], none⟩ :=
  ⟨rfl, rfl, by simp; omega, by simp, [], List.Perm.refl _, rfl⟩

variable (hc : TotalPreorderCmp c le) (hn : 1 ≤ n)
include hc hn

/-- **One element of the enumeration** through `nmin_i` keeps the invariant. -/
theorem StreamInv.step {ys : List ε} (h : StreamInv le key n ys d) (x : α) :
    ∃ d', nminI c key elt d x = some d' ∧ StreamInv le key n (ys ++ [elt x]) d' := by
  obtain ⟨rest, hperm, hkept⟩ := h.kept
  by_cases hdrop : ∃ l, d.limit = some l ∧ 0 ≤ c (key (elt x)) l
  · -- at or above `limit`: dropped, and left out
    obtain ⟨l, hl, hge⟩ := hdrop
    refine ⟨d, nminI_of_ge hl hge, h.n_eq, h.bufmax_eq, h.lt_bufmax, h.full, rest ++ [elt x],
      by rw [← List.append_assoc]; exact hperm.append_right _, ?_⟩
    rw [hl] at hkept ⊢
    exact hkept.skip ((hc.nonneg_iff _ _).mp hge)
  have hlt : ∀ l, d.limit = some l → c (key (elt x)) l < 0 :=
    fun l hl => not_le.mp fun hge => hdrop ⟨l, hl, hge⟩
  have hpush : Kept le key (d.buf ++ [elt x]) rest d.limit :=
    hkept.push fun l hl => (hc.nonpos_iff _ _).mp (hlt l hl).le
  have hperm' : (d.buf ++ [elt x] ++ rest).Perm (ys ++ [elt x]) := by
    rw [List.append_assoc]
    refine (List.perm_append_comm.append_left d.buf).trans ?_
    rw [← List.append_assoc]
    exact hperm.append_right _
  have hlen : ((d.buf ++ [elt x]).length : ℤ) = d.buf.length + 1 := by simp
  have hbufmax := h.bufmax_eq
  have hn' := h.n_eq
  have hshort := h.lt_bufmax
  rw [nminI_of_lt hlt]
  by_cases hfull : ((d.buf ++ [elt x]).length : ℤ) = d.bufmax
  · -- the buffer is full: filtered down to `n`
    rw [if_pos hfull]
    obtain ⟨l, kept, dropped, hf, hl, hklen, hperm2, hk1, hk2⟩ :=
      nminFilter_spec (d := { d with buf := d.buf ++ [elt x] }) hc (by dsimp only; omega)
        (by dsimp only; omega)
    refine ⟨_, hf, hn', hbufmax, ?_, fun _ => ?_, dropped ++ rest, ?_,
      hpush.filter hc.trans hl hk1 hk2⟩
    · dsimp only at hklen ⊢; omega
    · dsimp only at hklen ⊢; omega
    · rw [← List.append_assoc]
      exact (hperm2.append_right rest).trans hperm'
  · -- room left: appended
    rw [if_neg hfull]
    refine ⟨_, rfl, hn', hbufmax, ?_, fun hs => ?_, rest, hperm', hpush⟩
    · dsimp only; omega
    · have := h.full hs; dsimp only; omega

/-- **The enumeration** through `nmin_i` keeps the invariant. -/
theorem StreamInv.run (xs : List α) :
    ∀ {ys : List ε} {d : NminData ε κ}, StreamInv le key n ys d →
      ∃ d', xs.foldlM (nminI c key elt) d = some d' ∧ StreamInv le key n (ys ++ xs.map elt) d' := by
  induction xs with
  | nil => intro ys d h; exact ⟨d, rfl, by simpa using h⟩
  | cons x xs ih =>
    intro ys d h
    obtain ⟨d1, h1, hinv1⟩ := h.step hc hn x
    obtain ⟨d', h', hinv'⟩ := ih hinv1
    refine ⟨d', ?_, by simpa using hinv'⟩
    simp only [List.foldlM_cons, h1, Option.bind_eq_bind, Option.bind_some]
    exact h'

variable (key elt) in
/-- **The buffer at the end** of `rb_nmin_run`, after the last `nmin_filter`: `min(n, count)` of
the elements, each at or below every element left out. -/
theorem nminRun_buffer (xs : List α) :
    ∃ d0 d rest, xs.foldlM (nminI c key elt) ⟨n, n * 4, [], none⟩ = some d0 ∧
      nminFilter c key d0 = some d ∧ d.buf.length = min n.toNat xs.length ∧
      (d.buf ++ rest).Perm (xs.map elt) ∧ ∀ x ∈ d.buf, ∀ y ∈ rest, le (key x) (key y) := by
  obtain ⟨d0, hrun, hinv⟩ := StreamInv.run hc hn xs (StreamInv.start hn : StreamInv le key n [] _)
  rw [List.nil_append] at hinv
  obtain ⟨rest, hperm, hkept⟩ := hinv.kept
  have hlen : d0.buf.length + rest.length = xs.length := by
    simpa using hperm.length_eq
  have hn0 := hinv.n_eq
  by_cases hle : (d0.buf.length : ℤ) ≤ d0.n
  · -- no more than `n` left: the last filter does nothing
    refine ⟨d0, d0, rest, hrun, nminFilter_of_le hle, ?_, hperm, hkept.le_rest hc.trans⟩
    cases hlim : d0.limit with
    | none =>
      rw [hlim] at hkept
      rw [show rest = [] from hkept, List.length_nil] at hlen
      omega
    | some l =>
      have := hinv.full (by rw [hlim]; rfl)
      omega
  · obtain ⟨l, kept, dropped, hf, hl, hklen, hperm2, hk1, hk2⟩ :=
      nminFilter_spec (d := d0) hc (by omega) (by omega)
    refine ⟨d0, _, dropped ++ rest, hrun, hf, ?_, ?_, (hkept.filter hc.trans hl hk1 hk2).le_rest hc.trans⟩
    · dsimp only; omega
    · rw [← List.append_assoc]
      exact (hperm2.append_right rest).trans hperm

end Stream

/-! ## `rb_nmin_run` -/

/-- `r` is the `n` least elements of `xs` for the preorder `le`, in order: `min(n, |xs|)` of
them, sorted, that make up `xs` with elements all at or above them. -/
def NLeast (le : α → α → Prop) (n : ℤ) (xs r : List α) : Prop :=
  r.length = min n.toNat xs.length ∧ r.Pairwise le ∧
    ∃ rest, (r ++ rest).Perm xs ∧ ∀ x ∈ r, ∀ y ∈ rest, le x y

/-- `sort`, standing for `ruby_qsort`, sorts by the preorder `le`: it permutes, and leaves each
element at or below those after it. -/
structure SortsBy (sort : List ε → List ε) (le : ε → ε → Prop) : Prop where
  perm : ∀ l, (sort l).Perm l
  sorted : ∀ l, (sort l).Pairwise le

/-- Insertion sort by a comparison of keys that follows a total preorder sorts by it. -/
theorem sortsBy_insertionSort {cmp : κ → κ → ℤ} {le : κ → κ → Prop}
    (hc : TotalPreorderCmp cmp le) (key : ε → κ) :
    SortsBy (List.insertionSort fun a b => cmp (key a) (key b) ≤ 0)
      fun a b => le (key a) (key b) where
  perm l := List.perm_insertionSort _ l
  sorted l := by
    have : Std.Total fun a b : ε => cmp (key a) (key b) ≤ 0 :=
      ⟨fun a b => by rw [hc.nonpos_iff, hc.nonpos_iff]; exact hc.total _ _⟩
    have : IsTrans ε fun a b => cmp (key a) (key b) ≤ 0 :=
      ⟨fun a b c hab hbc => by
        rw [hc.nonpos_iff] at hab hbc ⊢
        exact hc.trans _ _ _ hab hbc⟩
    exact (List.pairwise_insertionSort _ l).imp fun h => (hc.nonpos_iff _ _).mp h

/-- The answer of `rb_nmin_run` from the sorted buffer `r`: as it is for `min`, reversed for
`max`. -/
theorem nLeast_revOut {le : κ → κ → Prop} {k : α → κ} {num : ℤ} {xs r rest : List α} (rev : Bool)
    (hlen : r.length = min num.toNat xs.length) (hsorted : r.Pairwise fun a b => le (k a) (k b))
    (hperm : (r ++ rest).Perm xs) (hleft : ∀ x ∈ r, ∀ y ∈ rest, revLe le rev (k x) (k y)) :
    NLeast (fun a b => revLe le rev (k a) (k b)) num xs (if rev then r.reverse else r) := by
  cases rev with
  | false => exact ⟨hlen, hsorted, rest, hperm, hleft⟩
  | true =>
    show NLeast _ num xs r.reverse
    refine ⟨by rw [List.length_reverse, hlen], List.pairwise_reverse.mpr hsorted, rest,
      ((List.reverse_perm r).append_right rest).trans hperm,
      fun x hx y hy => hleft x (List.mem_reverse.mp hx) y hy⟩

section Run

variable {cmp : κ → κ → ℤ} {key : ε → κ} {elt : α → ε} {out : ε → α} {eltsize : ℤ}
  {sort : List ε → List ε} {num : ℤ}

variable (key elt) in
/-- `nmin_i` ends for every comparison, with `n` as it was. -/
theorem nminI_ends (c : κ → κ → ℤ) {d : NminData ε κ} (h0 : 0 ≤ d.n) (x : α) :
    ∃ d', nminI c key elt d x = some d' ∧ d'.n = d.n := by
  by_cases hdrop : ∃ l, d.limit = some l ∧ 0 ≤ c (key (elt x)) l
  · obtain ⟨l, hl, hge⟩ := hdrop
    exact ⟨d, nminI_of_ge hl hge, rfl⟩
  rw [nminI_of_lt fun l hl => not_le.mp fun hge => hdrop ⟨l, hl, hge⟩]
  split_ifs
  · exact nminFilter_ends c key (d := { d with buf := d.buf ++ [elt x] }) h0
  · exact ⟨_, rfl, rfl⟩

/-- **`rb_nmin_run` answers for every comparison**, consistent or not, and every `num` in range:
no `nmin_filter` of the run reaches outside the buffer or goes on forever. -/
theorem rbNminRun_ends (rev : Bool) (h1 : 1 ≤ num) (h2 : num ≤ longMax / 4 / eltsize)
    (xs : List α) : ∃ r, rbNminRun cmp rev key elt out eltsize sort num xs = .ok (some r) := by
  -- `n` stays `num` along the enumeration, so each `nmin_i` ends
  have hfold : ∀ (xs : List α) (d : NminData ε κ), d.n = num →
      ∃ d', xs.foldlM (nminI (revCmp cmp rev) key elt) d = some d' ∧ d'.n = num := by
    intro xs
    induction xs with
    | nil => intro d hd; exact ⟨d, rfl, hd⟩
    | cons x xs ih =>
      intro d hd
      obtain ⟨d1, hstep, hn1⟩ := nminI_ends key elt (revCmp cmp rev) (d := d) (by omega) x
      obtain ⟨d', h', hn'⟩ := ih d1 (by omega)
      refine ⟨d', ?_, hn'⟩
      simp only [List.foldlM_cons, hstep, Option.bind_eq_bind, Option.bind_some]
      exact h'
  obtain ⟨d0, hrun, hn0⟩ := hfold xs ⟨num, num * 4, [], none⟩ rfl
  obtain ⟨d, hf, -⟩ := nminFilter_ends (revCmp cmp rev) key (d := d0) (by omega)
  rw [rbNminRun, if_neg (by omega), if_neg (by omega), if_neg (not_lt.mpr h2)]
  simp only [hrun, hf, Option.bind_eq_bind, Option.bind_some, Option.pure_def]
  exact ⟨_, rfl⟩

/-- Above `LONG_MAX / 4 / eltsize`, whatever the elements and the comparison, `rb_nmin_run`
raises "too big size" before it reads an element. -/
theorem rbNminRun_too_big (rev : Bool) (h1 : 1 ≤ num) (h2 : longMax / 4 / eltsize < num)
    (xs : List α) : rbNminRun cmp rev key elt out eltsize sort num xs = .error "too big size" := by
  rw [rbNminRun, if_neg (by omega), if_neg (by omega), if_pos h2]

variable {le : κ → κ → Prop}

/-- **`rb_nmin_run`** for a comparison by a total preorder and a sort by it, with
`1 ≤ num ≤ LONG_MAX / 4 / eltsize`: the `num` least elements of the enumeration in ascending
order, and for `max` the `num` greatest in descending order. -/
theorem rbNminRun_spec (hc : TotalPreorderCmp cmp le)
    (hsort : SortsBy sort fun a b => le (key a) (key b)) (hout : ∀ x, out (elt x) = x)
    (rev : Bool) (h1 : 1 ≤ num) (h2 : num ≤ longMax / 4 / eltsize) (xs : List α) :
    ∃ r, rbNminRun cmp rev key elt out eltsize sort num xs = .ok (some r) ∧
      NLeast (fun a b => revLe le rev (key (elt a)) (key (elt b))) num xs r := by
  obtain ⟨d0, d, rest, hrun, hf, hlen, hperm, hleft⟩ :=
    nminRun_buffer key elt (hc.revCmp rev) h1 xs
  -- every element of the buffer and of `rest` is `elt` of its `out`
  have hback : ∀ e ∈ d.buf ++ rest, elt (out e) = e := by
    intro e he
    obtain ⟨x, -, rfl⟩ := List.mem_map.mp (hperm.mem_iff.mp he)
    rw [hout]
  have hsperm := hsort.perm d.buf
  have hbuf : ∀ e ∈ sort d.buf, elt (out e) = e :=
    fun e he => hback e (List.mem_append_left _ (hsperm.mem_iff.mp he))
  -- the four facts on the sorted buffer that `nLeast_revOut` turns into the answer
  have hlen' : ((sort d.buf).map out).length = min num.toNat xs.length := by
    rw [List.length_map, hsperm.length_eq, hlen]
  have hsorted : ((sort d.buf).map out).Pairwise fun a b => le (key (elt a)) (key (elt b)) := by
    rw [List.pairwise_map]
    refine (hsort.sorted d.buf).imp_of_mem fun ha hb hab => ?_
    rw [hbuf _ ha, hbuf _ hb]
    exact hab
  have hperm' : ((sort d.buf).map out ++ rest.map out).Perm xs := by
    have hxs : (xs.map elt).map out = xs := by simp [Function.comp_def, hout]
    rw [← List.map_append, ← hxs]
    exact ((hsperm.append_right rest).trans hperm).map out
  have hleft' : ∀ x ∈ (sort d.buf).map out, ∀ y ∈ rest.map out,
      revLe le rev (key (elt x)) (key (elt y)) := by
    intro x hx y hy
    obtain ⟨e, he, rfl⟩ := List.mem_map.mp hx
    obtain ⟨e', he', rfl⟩ := List.mem_map.mp hy
    rw [hbuf e he, hback e' (List.mem_append_right _ he')]
    exact hleft e (hsperm.mem_iff.mp he) e' he'
  refine ⟨_, ?_, nLeast_revOut rev hlen' hsorted hperm' hleft'⟩
  rw [rbNminRun, if_neg (by omega), if_neg (by omega), if_neg (not_lt.mpr h2)]
  simp only [hrun, hf, Option.bind_eq_bind, Option.bind_some, Option.pure_def]

end Run

/-! ## `min(n)`, `max(n)`, `min_by(n)`, `max_by(n)` -/

end CRuby.Enum
