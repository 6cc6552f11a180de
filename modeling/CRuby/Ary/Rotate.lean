import Mathlib.Data.List.Rotate
import Mathlib.Tactic.LinearCombination

/-!
# `Array#rotate` and `Array#rotate!`

`rbAryRotate` is `rb_ary_rotate` of `array.c`. It first brings the count into `[0, len)` with
`rotate_count` and then rotates the array in place with three calls of `ary_reverse`
(`aryReverse`, a two-pointer swap loop). `rbAryRotateM` is `rb_ary_rotate_m`, which copies the two
parts into a new array, and `rbAryRotateBang` is `rb_ary_rotate_bang`. Arrays are lists of their
elements and a `long` is an integer. No step of these functions overflows a `long`:
`rotate_count` takes the complement of a negative count, never its negation, so `LONG_MIN` is
safe.

`rotateCount_eq` says that `rotate_count` is the mathematical `cnt % len`, and
`aryReverse_getElem?` that `ary_reverse` reverses its segment. From them, both functions are
Mathlib's `List.rotate` by `cnt % len` (`rbAryRotate_eq_rotate`, `rbAryRotateM_eq_rotate`).
`rb_ary_rotate` returns `Qnil` exactly when that rotation is the identity, but
`rb_ary_rotate_bang` always returns the array.
-/

namespace CRuby.Ary

variable {α : Type*}

/-! ## The functions of `array.c` -/

/-- `tmp = *p1; *p1 = *p2; *p2 = tmp` at indices `i` and `j`. -/
def swapAt (a : List α) (i j : ℕ) : List α :=
  match a[i]?, a[j]? with
  | some x, some y => (a.set i y).set j x
  | _, _ => a

/-- The loop of `ary_reverse(ptr + i, ptr + j)`: while `i < j`, swap the two ends and move both
inwards. Each turn brings the ends two closer, so `j - i` turns are more than enough. -/
def aryReverseLoop : (fuel : ℕ) → List α → ℕ → ℕ → List α
  | 0, a, _, _ => a
  | fuel + 1, a, i, j => if i < j then aryReverseLoop fuel (swapAt a i j) (i + 1) (j - 1) else a

/-- `ary_reverse(ptr + i, ptr + j)`: reverse the elements `i .. j`, both included. -/
def aryReverse (a : List α) (i j : ℕ) : List α := aryReverseLoop (j - i) a i j

/-- `rotate_count(cnt, len)`, with C's truncating `%`. -/
def rotateCount (cnt len : ℤ) : ℤ :=
  if cnt < 0 then len - (~~~cnt).tmod len - 1 else cnt.tmod len

/-- `rb_ary_rotate(ary, cnt)`: the array afterwards, and what the function returns, the array
(`some`) or `Qnil` (`none`). -/
def rbAryRotate (a : List α) (cnt : ℤ) : List α × Option (List α) :=
  if cnt ≠ 0 then
    let len : ℤ := a.length
    if len > 0 ∧ rotateCount cnt len > 0 then
      let cnt := rotateCount cnt len
      let len := len - 1
      let a := if cnt < len then aryReverse a cnt.toNat len.toNat else a
      let cnt := cnt - 1
      let a := if cnt > 0 then aryReverse a 0 cnt.toNat else a
      let a := if len > 0 then aryReverse a 0 len.toNat else a
      (a, some a)
    else (a, none)
  else (a, none)

/-- `rb_ary_rotate_bang`, that is `Array#rotate!(cnt)`: it calls `rb_ary_rotate` and returns the
array. -/
def rbAryRotateBang (a : List α) (cnt : ℤ) : List α × Option (List α) :=
  let a := (rbAryRotate a cnt).1
  (a, some a)

/-- `rb_ary_rotate_m`, that is `Array#rotate(cnt)`: a new array holding `ptr[cnt .. len)` and
then `ptr[0 .. cnt)`. -/
def rbAryRotateM (a : List α) (cnt : ℤ) : List α :=
  let len : ℤ := a.length
  if len > 0 then
    let cnt := rotateCount cnt len
    (a.drop cnt.toNat).take (len - cnt).toNat ++ a.take cnt.toNat
  else []

/-! ## `ary_reverse` reverses its segment -/

theorem length_swapAt (a : List α) (i j : ℕ) : (swapAt a i j).length = a.length := by
  unfold swapAt
  split <;> simp

theorem getElem?_swapAt {a : List α} {i j : ℕ} (hi : i < a.length) (hj : j < a.length) (k : ℕ) :
    (swapAt a i j)[k]? = if k = j then a[i]? else if k = i then a[j]? else a[k]? := by
  simp only [swapAt, List.getElem?_eq_getElem hi, List.getElem?_eq_getElem hj,
    List.getElem?_set, List.length_set]
  by_cases hkj : k = j
  · simp [hkj, hj]
  · by_cases hki : k = i
    · have hij : i ≠ j := hki ▸ hkj
      simp [hki, hi, hij, Ne.symm hij]
    · simp [Ne.symm hkj, Ne.symm hki, hkj, hki]

theorem length_aryReverseLoop (fuel : ℕ) :
    ∀ (a : List α) i j, (aryReverseLoop fuel a i j).length = a.length := by
  induction fuel with
  | zero => intro a i j; rfl
  | succ fuel ih =>
    intro a i j
    simp only [aryReverseLoop]
    split
    · rw [ih, length_swapAt]
    · rfl

theorem length_aryReverse (a : List α) (i j : ℕ) : (aryReverse a i j).length = a.length :=
  length_aryReverseLoop _ a i j

/-- A segment of at most one element is its own reverse. -/
theorem getElem?_eq_of_le {a : List α} {i j : ℕ} (hji : j ≤ i) (k : ℕ) :
    a[k]? = if i ≤ k ∧ k ≤ j then a[i + j - k]? else a[k]? := by
  split
  · congr 1
    omega
  · rfl

/-- **The swap loop reverses `i .. j`**, read index by index. By induction on the fuel: one turn
swaps the two ends, and the rest of the loop reverses what lies between them. -/
theorem aryReverseLoop_getElem? (fuel : ℕ) :
    ∀ (a : List α) i j, j - i ≤ fuel → j < a.length → ∀ k,
      (aryReverseLoop fuel a i j)[k]? = if i ≤ k ∧ k ≤ j then a[i + j - k]? else a[k]? := by
  induction fuel with
  | zero =>
    intro a i j hfuel _ k
    exact getElem?_eq_of_le (by omega) k
  | succ fuel ih =>
    intro a i j hfuel hj k
    simp only [aryReverseLoop]
    split
    case isFalse hij => exact getElem?_eq_of_le (by omega) k
    case isTrue hij =>
      have hi : i < a.length := by omega
      rw [ih _ (i + 1) (j - 1) (by omega) (by rw [length_swapAt]; omega) k]
      -- the ends were swapped by this turn, the inside by the rest of the loop
      rcases Nat.lt_or_ge k i with hk | hk
      · rw [if_neg (by omega), if_neg (by omega), getElem?_swapAt hi hj, if_neg (by omega),
          if_neg (by omega)]
      rcases Nat.eq_or_lt_of_le hk with rfl | hk
      · rw [if_neg (by omega), if_pos (by omega), getElem?_swapAt hi hj, if_neg (by omega),
          if_pos rfl, Nat.add_sub_cancel_left]
      rcases Nat.lt_or_ge k j with hkj | hkj
      · rw [if_pos (by omega), if_pos (by omega), getElem?_swapAt hi hj, if_neg (by omega),
          if_neg (by omega), show i + 1 + (j - 1) - k = i + j - k by omega]
      rcases Nat.eq_or_lt_of_le hkj with rfl | hkj
      · rw [if_neg (by omega), if_pos (by omega), getElem?_swapAt hi hj, if_pos rfl,
          Nat.add_sub_cancel]
      · rw [if_neg (by omega), if_neg (by omega), getElem?_swapAt hi hj, if_neg (by omega),
          if_neg (by omega)]

theorem aryReverse_getElem? {a : List α} {i j : ℕ} (hj : j < a.length) (k : ℕ) :
    (aryReverse a i j)[k]? = if i ≤ k ∧ k ≤ j then a[i + j - k]? else a[k]? :=
  aryReverseLoop_getElem? _ a i j le_rfl hj k

theorem aryReverse_of_le (a : List α) {i j : ℕ} (hji : j ≤ i) : aryReverse a i j = a := by
  rw [aryReverse, Nat.sub_eq_zero_of_le hji]
  rfl

/-- A guarded `ary_reverse` whose guard fails only on a segment of at most one element. -/
theorem ite_aryReverse (a : List α) {i j : ℕ} (p : Prop) [Decidable p] (h : ¬p → j ≤ i) :
    (if p then aryReverse a i j else a) = aryReverse a i j := by
  split
  · rfl
  · next hp => exact (aryReverse_of_le a (h hp)).symm

/-- **Three reversals rotate.** `ary_reverse` on `c .. n - 1`, then on `0 .. c - 1`, then on
the whole array rotates it left by `c`. Index by index: the last reversal reads index `k` at
`n - 1 - k`, and the first two read that at `k + c` or at `k + c - n`. -/
theorem reverse_reverse_reverse (a : List α) {c : ℕ} (hc0 : 0 < c) (hcn : c < a.length) :
    aryReverse (aryReverse (aryReverse a c (a.length - 1)) 0 (c - 1)) 0 (a.length - 1) =
      a.rotate c := by
  set n := a.length with hn
  have h1 : (aryReverse a c (n - 1)).length = n := length_aryReverse ..
  have h2 : (aryReverse (aryReverse a c (n - 1)) 0 (c - 1)).length = n := by
    rw [length_aryReverse, h1]
  have r1 := fun k => aryReverse_getElem? (a := a) (i := c) (j := n - 1) (by omega) k
  have r2 := fun k => aryReverse_getElem? (a := aryReverse a c (n - 1)) (i := 0) (j := c - 1)
    (by omega) k
  have r3 := fun k => aryReverse_getElem?
    (a := aryReverse (aryReverse a c (n - 1)) 0 (c - 1)) (i := 0) (j := n - 1) (by omega) k
  apply List.ext_getElem?
  intro k
  rcases Nat.lt_or_ge k n with hk | hk
  · rw [List.getElem?_rotate hk, r3, if_pos (by omega), r2]
    by_cases hlow : 0 + (n - 1) - k ≤ c - 1
    · -- `k` lies in the last `c` places and comes from the first `c`
      rw [if_pos ⟨Nat.zero_le _, hlow⟩, r1, if_neg (by omega),
        Nat.mod_eq_sub_mod (by omega), Nat.mod_eq_of_lt (by omega)]
      congr 1
      omega
    · -- `k` lies in the first `n - c` places and comes from the last `n - c`
      rw [if_neg (by omega), r1, if_pos (by omega), Nat.mod_eq_of_lt (by omega)]
      congr 1
      omega
  · rw [List.getElem?_eq_none (by rw [length_aryReverse, h2]; omega),
      List.getElem?_eq_none (by rw [List.length_rotate]; omega)]

/-! ## `rotate_count` is the remainder of floor division -/

theorem complement_eq (a : ℤ) : ~~~a = -a - 1 := by
  cases a with
  | ofNat n =>
    show Int.negSucc n = _
    rw [Int.negSucc_eq, Int.ofNat_eq_natCast]
    omega
  | negSucc n =>
    show (n : ℤ) = _
    rw [Int.negSucc_eq]
    omega

/-- `rotate_count` is `cnt % len` for every count. A negative count goes through its complement
`-cnt - 1 = len * q + r`, and then `cnt = (len - 1 - r) + len * (-q - 1)`. -/
theorem rotateCount_eq {len : ℤ} (hlen : 0 < len) (cnt : ℤ) :
    rotateCount cnt len = cnt % len := by
  unfold rotateCount
  split
  case isFalse hnn => exact Int.tmod_eq_emod_of_nonneg (by omega)
  case isTrue hneg =>
    rw [complement_eq, Int.tmod_eq_emod_of_nonneg (by omega)]
    have hr0 : 0 ≤ (-cnt - 1) % len := Int.emod_nonneg _ hlen.ne'
    have hrl : (-cnt - 1) % len < len := Int.emod_lt_of_pos _ hlen
    have hdiv := Int.emod_add_mul_ediv (-cnt - 1) len
    generalize (-cnt - 1) % len = r at hr0 hrl hdiv ⊢
    generalize (-cnt - 1) / len = q at hdiv
    have hcnt : cnt = (len - r - 1) + len * (-q - 1) := by linear_combination hdiv
    rw [hcnt, Int.add_mul_emod_self_left, Int.emod_eq_of_lt (by omega) (by omega)]

/-! ## Both functions rotate by `cnt % len` -/

/-- Rotating by `cnt % len` reads index `i` at `(i + cnt) % len`. -/
theorem getElem?_rotate_emod (a : List α) (cnt : ℤ) {i : ℕ} (hi : i < a.length) :
    (a.rotate (cnt % a.length).toNat)[i]? = a[((i + cnt) % a.length).toNat]? := by
  have hc : ((cnt % a.length).toNat : ℤ) = cnt % a.length :=
    Int.toNat_of_nonneg (Int.emod_nonneg _ (by omega))
  rw [List.getElem?_rotate hi, ← Int.add_emod_emod, ← hc, ← Nat.cast_add, ← Int.natCast_mod]
  rfl

theorem rbAryRotate_eq_rotate (a : List α) (cnt : ℤ) :
    (rbAryRotate a cnt).1 = a.rotate (cnt % a.length).toNat := by
  unfold rbAryRotate
  by_cases hcnt : cnt = 0
  · simp [hcnt]
  by_cases hn : a.length = 0
  · simp [List.length_eq_zero_iff.mp hn]
  have hc0 : 0 ≤ cnt % (a.length : ℤ) := Int.emod_nonneg _ (by omega)
  have hcn : cnt % (a.length : ℤ) < a.length := Int.emod_lt_of_pos _ (by omega)
  simp only [hcnt, ne_eq, not_false_eq_true, if_true, rotateCount_eq (by omega : (0 : ℤ) < a.length)]
  by_cases hzero : cnt % (a.length : ℤ) = 0
  · rw [if_neg (by omega), hzero]
    simp
  rw [if_pos ⟨by omega, by omega⟩]
  -- each guard fails only on a segment of at most one element
  rw [ite_aryReverse, ite_aryReverse, ite_aryReverse,
    show ((a.length : ℤ) - 1).toNat = a.length - 1 by omega,
    show (cnt % (a.length : ℤ) - 1).toNat = (cnt % (a.length : ℤ)).toNat - 1 by omega]
  · exact reverse_reverse_reverse a (by omega) (by omega)
  all_goals intro h; omega

/-- `rb_ary_rotate` returns `Qnil` exactly when the rotation by the count is the identity. -/
theorem rbAryRotate_snd_eq_none (a : List α) (cnt : ℤ) :
    (rbAryRotate a cnt).2 = none ↔ a.length = 0 ∨ cnt % a.length = 0 := by
  unfold rbAryRotate
  by_cases hcnt : cnt = 0
  · simp [hcnt]
  by_cases hn : a.length = 0
  · simp [hn]
  have hc0 : 0 ≤ cnt % (a.length : ℤ) := Int.emod_nonneg _ (by omega)
  simp only [hcnt, ne_eq, not_false_eq_true, if_true, rotateCount_eq (by omega : (0 : ℤ) < a.length)]
  split
  · simp only [reduceCtorEq, false_iff, not_or]
    omega
  · simp only [true_iff]
    omega

theorem rbAryRotateM_eq_rotate (a : List α) (cnt : ℤ) :
    rbAryRotateM a cnt = a.rotate (cnt % a.length).toNat := by
  unfold rbAryRotateM
  by_cases hn : a.length = 0
  · simp [List.length_eq_zero_iff.mp hn]
  have hc0 : 0 ≤ cnt % (a.length : ℤ) := Int.emod_nonneg _ (by omega)
  have hcn : cnt % (a.length : ℤ) < a.length := Int.emod_lt_of_pos _ (by omega)
  rw [if_pos (by omega)]
  simp only [rotateCount_eq (by omega : (0 : ℤ) < a.length)]
  rw [show ((a.length : ℤ) - cnt % (a.length : ℤ)).toNat = a.length - (cnt % (a.length : ℤ)).toNat
      by omega, List.take_of_length_le (by rw [List.length_drop]),
    List.rotate_eq_drop_append_take (by omega)]

example : rbAryRotateM [1, 2, 3, 4] (-3) = [2, 3, 4, 1] := by decide

/-- At `LONG_MIN` the count is complemented, never negated: `-2 ^ 63 % 3 = 1`. -/
example : rbAryRotateM [1, 2, 3] (-2 ^ 63) = [2, 3, 1] := by decide

/-- **`rotate` and `rotate!` rotate by the count modulo the length.** For every array and every
count, both leave the array `b` with `b[i] = a[(i + cnt) % len]`. `rb_ary_rotate` returns `Qnil`
exactly when `len = 0` or `cnt % len = 0`, and `rotate!` returns the array on every count. -/
theorem rotate_rotates_by_count (a : List α) (cnt : ℤ) :
    (rbAryRotate a cnt).1.length = a.length ∧ (rbAryRotateM a cnt).length = a.length ∧
      (∀ i < a.length, (rbAryRotate a cnt).1[i]? = a[((i + cnt) % a.length).toNat]? ∧
        (rbAryRotateM a cnt)[i]? = a[((i + cnt) % a.length).toNat]?) ∧
      ((rbAryRotate a cnt).2 = none ↔ a.length = 0 ∨ cnt % a.length = 0) ∧
      (rbAryRotateBang a cnt).2 = some (rbAryRotate a cnt).1 := by
  refine ⟨?_, ?_, fun i hi => ⟨?_, ?_⟩, rbAryRotate_snd_eq_none a cnt, rfl⟩
  · rw [rbAryRotate_eq_rotate, List.length_rotate]
  · rw [rbAryRotateM_eq_rotate, List.length_rotate]
  · rw [rbAryRotate_eq_rotate, getElem?_rotate_emod a cnt hi]
  · rw [rbAryRotateM_eq_rotate, getElem?_rotate_emod a cnt hi]

/-- `rotate!` by a multiple of the length returns the array, not `nil`. -/
theorem rotate_bang_returns_array :
    (3 : ℤ) % ([1, 2, 3] : List ℕ).length = 0 ∧ (rbAryRotateBang [1, 2, 3] 3).2 = some [1, 2, 3] :=
  ⟨by decide, by decide⟩

end CRuby.Ary
