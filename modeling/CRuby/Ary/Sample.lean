import CRuby.Ary.Rotate
import CRuby.Lib.Except

/-!
# `Array#sample` and `Array#shuffle!` with a `random:` generator

`rb_ary_sample` calls `RAND_UPTO`, which for a generator object calls its Ruby method
`rand(max)`; that method can reach the array and change it. The generator is therefore a
function of its own state and of the array, answering an Integer, a new state and a new array
(`Rng`). An array is the list of its elements; `shuffle!` also checks that the array keeps its
buffer, so there it is its elements and its buffer (`RArray`).

For `n ≤ 10` all draws come first; the array is then re-read, and if it shrank the draws are
checked against the new length. The indices read are the decoded ones, though: `j + 1` in the
`n = 2` case, up to `k + 2` in the `n = 3` case and up to `rnds[i] + i` in the skip-insertion
(`skipInsert`), so a draw below the new length can still decode past it. `rbArySample` answers
each element read as `ary[x]?` of the array as it stands at the read, `none` for a read past
its end. Where the generator never shortens the array every read is in bounds
(`rbArySample_reads_of_not_shortened`); one that pops an element on its second call makes
`[10, 20, 30].sample(2)` read index `2` of a two-element array.

The memoised path re-reads the length after its draws and samples nothing if any draw is at or
past it, and the last path shuffles a copy, so neither reads past the end.
-/

namespace CRuby.Ary

variable {σ α : Type}

/-- A `random:` object: `rand(max)` in state `σ` on the array object being sampled (`A`)
answers an Integer, a new state and the array as it leaves it. -/
structure Rng (σ A : Type) where
  rand : σ → A → ℕ → ℤ × σ × A

/-- `RAND_UPTO(max)`, that is `rb_random_ulong_limited(randgen, max - 1)` on a generator
object: it calls `rand(max)` and raises `RangeError` unless the answer lies in `[0, max - 1]`. -/
def randUpto {A : Type} (g : Rng σ A) (s : σ) (ary : A) (max : ℕ) : Except String (ℕ × σ × A) :=
  let (v, s', ary') := g.rand s ary max
  if v < 0 then .error "random number too small"
  else if max - 1 < v.toNat then .error "random number too big"
  else .ok (v.toNat, s', ary')

/-- `rnds[i] = RAND_UPTO(len - i)` for the `c` indices from `i` on, `len` fixed before the
loop. -/
def drawRnds (g : Rng σ (List α)) (len : ℕ) : ℕ → ℕ → σ → List α → Except String (List ℕ × σ × List α)
  | 0, _, s, ary => .ok ([], s, ary)
  | c + 1, i, s, ary => do
    let (r, s, ary) ← randUpto g s ary (len - i)
    let (rs, s, ary) ← drawRnds g len c (i + 1) s ary
    return (r :: rs, s, ary)

/-- The `n = 2` case: the second index skips the first. -/
def sampleTwo (i j : ℕ) : ℕ × ℕ := (i, if j ≥ i then j + 1 else j)

/-- The `n = 3` case: `l` and `g` are the smaller and the larger of the first two indices,
and `if (k >= l && (++k >= g)) ++k` skips both. -/
def sampleThree (i j k : ℕ) : ℕ × ℕ × ℕ :=
  let (l, g, j) := if j ≥ i then (i, j + 1, j + 1) else (j, i, j)
  let k := if k ≥ l then (if k + 1 ≥ g then k + 2 else k + 1) else k
  (i, j, k)

/-- `for (j = 0; j < i; ++j) { if (k < sorted[j]) break; ++k; }` over the indices taken so
far, then `memmove` and `sorted[j] = k`: the index and the sorted list that holds it. -/
def skipInsert : List ℕ → ℕ → ℕ × List ℕ
  | [], k => (k, [k])
  | s :: ss, k =>
    if k < s then (k, k :: s :: ss)
    else
      let (k', ss') := skipInsert ss (k + 1)
      (k', s :: ss')

/-- `idx[i]` for each draw in turn; `sorted[0] = idx[0] = rnds[0]` is the walk over no index. -/
def skipLoop : List ℕ → List ℕ → List ℕ
  | _, [] => []
  | sorted, r :: rs =>
    let (k, sorted') := skipInsert sorted r
    k :: skipLoop sorted' rs

/-- The `switch (n)` and the skip-insertion of `rb_ary_sample` for `n ≤ 10`, reading `ary`. -/
def sampleSmall (ary : List α) (n : ℕ) (rnds : List ℕ) : List (Option α) :=
  let r := fun i => rnds.getD i 0
  match n with
  | 0 => []
  | 1 => [ary[r 0]?]
  | 2 =>
    let (i, j) := sampleTwo (r 0) (r 1)
    [ary[i]?, ary[j]?]
  | 3 =>
    let (i, j, k) := sampleThree (r 0) (r 1) (r 2)
    [ary[i]?, ary[j]?, ary[k]?]
  | n => (skipLoop [] (rnds.take n)).map (ary[·]?)

/-- `memo_threshold`. -/
def memoThreshold (len : ℕ) : ℕ :=
  if len < 2560 then len / 128
  else if len < 5120 then len / 64
  else if len < 10240 then len / 32
  else len / 16

/-- The virtual Fisher–Yates of the memoised path: `memo` holds the displaced entries of the
permutation, `i2` and `j2` are the entries at `i` and `j`, and `j2` is read. -/
def memoLoop : (ℕ → Option ℕ) → ℕ → List ℕ → List ℕ
  | _, _, [] => []
  | memo, i, j :: js =>
    let i2 := (memo i).getD i
    let j2 := (memo j).getD j
    j2 :: memoLoop (Function.update memo j (some i2)) (i + 1) js

/-- The memoised path: draw `RAND_UPTO(len - i) + i`, re-read the length, sample nothing if a
draw reaches it. -/
def sampleMemo (g : Rng σ (List α)) (s : σ) (ary : List α) (n : ℕ) : Except String (List (Option α)) := do
  let (rs, _, ary') ← drawRnds g ary.length n 0 s ary
  let rs := rs.mapIdx fun i r => r + i
  let len := ary'.length
  let n := if len ≤ rs.foldl max 0 then 0 else min n len
  return (memoLoop (fun _ => none) 0 (rs.take n)).map (ary'[·]?)

/-- The partial Fisher–Yates on the copy `result`: `j = RAND_UPTO(len - i) + i`, then swap. -/
def copyLoop (g : Rng σ (List α)) (len : ℕ) :
    ℕ → ℕ → σ → List α → List α → Except String (List α × σ × List α)
  | 0, _, s, ary, result => .ok (result, s, ary)
  | c + 1, i, s, ary, result => do
    let (r, s, ary) ← randUpto g s ary (len - i)
    copyLoop g len c (i + 1) s ary (swapAt result i (r + i))

/-- The last path: `rb_ary_dup`, shuffle the first `n` places of the copy, keep them. -/
def sampleCopy (g : Rng σ (List α)) (s : σ) (ary : List α) (n : ℕ) : Except String (List (Option α)) := do
  let (result, _, _) ← copyLoop g ary.length n 0 s ary ary
  return (result.take n).map some

/-- The rest of `rb_ary_sample` after the draws `rnds` for `n ≤ 10`: `k` is the length before
them and `ary` the array as the draws left it. -/
def sampleRest (g : Rng σ (List α)) (s : σ) (ary : List α) (k n : ℕ) (rnds : List ℕ) :
    Except String (List (Option α)) :=
  let len := ary.length
  if len < k ∧ n ≤ 10 ∧ rnds.any (len ≤ ·) then .ok []
  else
    let n := min n len
    if n ≤ 10 then .ok (sampleSmall ary n rnds)
    else if n ≤ memoThreshold len / 2 then sampleMemo g s ary n
    else sampleCopy g s ary n

/-- `ary.sample(n, random: g)`: every element read, as `ary[x]?` of the array at the read. -/
def rbArySample (g : Rng σ (List α)) (s : σ) (ary : List α) (n : ℤ) : Except String (List (Option α)) := do
  let len := ary.length
  if n < 0 then throw "negative sample number"
  let n := min n.toNat len
  let (rnds, s, ary') ← if n ≤ 10 then drawRnds g len n 0 s ary else pure ([], s, ary)
  sampleRest g s ary' len n rnds

/-- `ary.sample(random: g)`: `rb_ary_elt`, so `none` is `nil` for an index past the end. -/
def rbArySampleOne (g : Rng σ (List α)) (s : σ) (ary : List α) : Except String (Option α) := do
  let len := ary.length
  let (i, _, ary) ← if len < 2 then pure (0, s, ary) else randUpto g s ary len
  return ary[i]?

/-- An array object as `rb_ary_shuffle_bang` sees it: its elements, and the buffer
`RARRAY_CONST_PTR(ary)` points to, which `rand` can replace (by `replace`, say) while keeping
the length. -/
structure RArray (α : Type) where
  ptr : ℕ
  elems : List α

/-- The loop of `rb_ary_shuffle_bang` over the buffer `ptr` taken before it: `j = RAND_UPTO(i)`,
raise if the length or the buffer moved, then swap `ptr[--i]` and `ptr[j]`. -/
def shuffleLoop (g : Rng σ (RArray α)) (len ptr : ℕ) : ℕ → σ → RArray α → Except String (RArray α)
  | 0, _, ary => .ok ary
  | i + 1, s, ary => do
    let (j, s, ary) ← randUpto g s ary (i + 1)
    if len ≠ ary.elems.length ∨ ptr ≠ ary.ptr then throw "modified during shuffle"
    -- the buffer is still `ptr`, so the swap through `ptr` is a swap in the array
    shuffleLoop g len ptr i s { ary with elems := swapAt ary.elems i j }

/-- `ary.shuffle!(random: g)`: `RARRAY_PTR_USE(ary, ptr, ...)` takes the buffer once. -/
def rbAryShuffleBang (g : Rng σ (RArray α)) (s : σ) (ary : RArray α) : Except String (RArray α) :=
  shuffleLoop g ary.elems.length ary.ptr ary.elems.length s ary

/-! ### Draws -/

/-- The draws from `i` on stay below what they may reach: `rnds[t] < len - (i + t)`. -/
def BelowFrom (len : ℕ) : ℕ → List ℕ → Prop
  | _, [] => True
  | i, r :: rs => r + i < len ∧ BelowFrom len (i + 1) rs

/-- A generator that never shortens the array it is given. -/
def Rng.NotShortening (g : Rng σ (List α)) : Prop :=
  ∀ s ary max, ary.length ≤ (g.rand s ary max).2.2.length

section Draws

variable {g : Rng σ (List α)} {s s' : σ} {ary ary' : List α}

theorem randUpto_spec {max r : ℕ} (h : randUpto g s ary max = .ok (r, s', ary')) :
    r ≤ max - 1 ∧ ary' = (g.rand s ary max).2.2 := by
  unfold randUpto at h
  rcases hr : g.rand s ary max with ⟨v, s1, a1⟩
  simp only [hr] at h ⊢
  split_ifs at h with h0 h1
  obtain ⟨rfl, rfl, rfl⟩ := h
  exact ⟨by omega, rfl⟩

theorem drawRnds_spec {len : ℕ} :
    ∀ (c i : ℕ) (s : σ) (ary : List α) (rs : List ℕ) (s' : σ) (ary' : List α),
      drawRnds g len c i s ary = .ok (rs, s', ary') → i + c ≤ len →
        BelowFrom len i rs ∧ rs.length = c ∧ (g.NotShortening → ary.length ≤ ary'.length)
  | 0, _, _, _, _, _, _, h, _ => by
    cases h
    exact ⟨trivial, rfl, fun _ => le_rfl⟩
  | c + 1, i, s, ary, rs, s', ary', h, hc => by
    obtain ⟨⟨r, s1, a1⟩, hr, h⟩ := Except.bind_eq_ok h
    obtain ⟨⟨rs', s2, a2⟩, hrs, h⟩ := Except.bind_eq_ok h
    cases h
    obtain ⟨hlt, rfl⟩ := randUpto_spec hr
    obtain ⟨hb, hl, hn⟩ := drawRnds_spec c (i + 1) s1 _ rs' s' ary' hrs (by omega)
    refine ⟨⟨by omega, hb⟩, by simp [hl], fun hg => ?_⟩
    exact (hg s ary (len - i)).trans (hn hg)

end Draws

/-! ### The decoded indices stay below the length -/

theorem sampleTwo_lt {len i j : ℕ} (hi : i < len) (hj : j + 1 < len) :
    (sampleTwo i j).1 < len ∧ (sampleTwo i j).2 < len := by
  unfold sampleTwo
  split_ifs <;> constructor <;> omega

theorem sampleThree_lt {len i j k : ℕ} (hi : i < len) (hj : j + 1 < len) (hk : k + 2 < len) :
    (sampleThree i j k).1 < len ∧ (sampleThree i j k).2.1 < len ∧ (sampleThree i j k).2.2 < len := by
  unfold sampleThree
  split_ifs <;> dsimp only <;> split_ifs <;> refine ⟨?_, ?_, ?_⟩ <;> omega

/-- The walk passes at most one index per index taken. -/
theorem skipInsert_fst_le : ∀ (sorted : List ℕ) (k : ℕ), (skipInsert sorted k).1 ≤ k + sorted.length
  | [], _ => le_refl _
  | s :: ss, k => by
    unfold skipInsert
    split_ifs
    · omega
    · have := skipInsert_fst_le ss (k + 1)
      simp only [List.length_cons]
      omega

theorem skipInsert_snd_length :
    ∀ (sorted : List ℕ) (k : ℕ), (skipInsert sorted k).2.length = sorted.length + 1
  | [], _ => rfl
  | s :: ss, k => by
    unfold skipInsert
    split_ifs
    · rfl
    · simp [skipInsert_snd_length ss (k + 1)]

theorem skipLoop_lt {len : ℕ} :
    ∀ (sorted rs : List ℕ), BelowFrom len sorted.length rs → ∀ x ∈ skipLoop sorted rs, x < len
  | _, [], _, _, hx => absurd hx List.not_mem_nil
  | sorted, r :: rs, ⟨hr, hb⟩, x, hx => by
    simp only [skipLoop, List.mem_cons] at hx
    rcases hx with rfl | hx
    · have := skipInsert_fst_le sorted r
      omega
    · rw [← skipInsert_snd_length sorted r] at hb
      exact skipLoop_lt _ rs hb x hx

theorem BelowFrom.getD_lt {len : ℕ} :
    ∀ {i : ℕ} {rs : List ℕ}, BelowFrom len i rs → ∀ t, t < rs.length → rs.getD t 0 + (i + t) < len
  | _, [], _, _, ht => absurd ht (Nat.not_lt_zero _)
  | i, r :: rs, ⟨hr, hb⟩, t, ht => by
    cases t with
    | zero => simpa using hr
    | succ t =>
      have := hb.getD_lt t (by simpa using ht)
      simp only [List.getD_cons_succ]
      omega

theorem BelowFrom.mono {len len' : ℕ} (hl : len ≤ len') :
    ∀ {i : ℕ} {rs : List ℕ}, BelowFrom len i rs → BelowFrom len' i rs
  | _, [], _ => trivial
  | _, _ :: _, ⟨hr, hb⟩ => ⟨by omega, hb.mono hl⟩

theorem BelowFrom.take {len : ℕ} :
    ∀ {i : ℕ} {rs : List ℕ} (n : ℕ), BelowFrom len i rs → BelowFrom len i (rs.take n)
  | _, [], _, _ => by simp [BelowFrom]
  | _, _ :: _, 0, _ => trivial
  | _, _ :: _, n + 1, ⟨hr, hb⟩ => ⟨hr, hb.take n⟩

/-- Every read of the `n ≤ 10` paths is in bounds once the draws fit below the array's
length. -/
theorem sampleSmall_isSome {ary : List α} {n : ℕ} {rnds : List ℕ} (hb : BelowFrom ary.length 0 rnds)
    (hn : n = rnds.length) : ∀ x ∈ sampleSmall ary n rnds, x.isSome := by
  have hr := hb.getD_lt
  unfold sampleSmall
  split
  · simp
  · have := hr 0 (by omega)
    simp_all
  · obtain ⟨h1, h2⟩ := sampleTwo_lt (hr 0 (by omega)) (hr 1 (by omega))
    simp_all
  · obtain ⟨h1, h2, h3⟩ := sampleThree_lt (hr 0 (by omega)) (hr 1 (by omega)) (hr 2 (by omega))
    simp_all
  · intro x hx
    obtain ⟨y, hy, rfl⟩ := List.mem_map.mp hx
    simpa using skipLoop_lt [] _ (hb.take _) y hy

/-! ### The memoised path -/

theorem le_foldl_max : ∀ (rs : List ℕ) (acc : ℕ), acc ≤ rs.foldl max acc ∧ ∀ r ∈ rs, r ≤ rs.foldl max acc
  | [], _ => ⟨le_rfl, fun _ h => absurd h List.not_mem_nil⟩
  | r :: rs, acc => by
    obtain ⟨h1, h2⟩ := le_foldl_max rs (max acc r)
    refine ⟨(le_max_left _ _).trans h1, fun x hx => ?_⟩
    rcases List.mem_cons.mp hx with rfl | hx
    · exact (le_max_right _ _).trans h1
    · exact h2 x hx

/-- The entries of the virtual permutation are positions below `L` or displaced ones, which
were such positions. -/
theorem memoLoop_lt {L : ℕ} :
    ∀ (memo : ℕ → Option ℕ) (i : ℕ) (js : List ℕ), (∀ x v, memo x = some v → v < L) →
      i + js.length ≤ L → (∀ j ∈ js, j < L) → ∀ x ∈ memoLoop memo i js, x < L
  | _, _, [], _, _, _, _, hx => absurd hx List.not_mem_nil
  | memo, i, j :: js, hm, hi, hj, x, hx => by
    have hjL : j < L := hj j List.mem_cons_self
    have hget : ∀ y, y < L → (memo y).getD y < L := by
      intro y hy
      cases h : memo y with
      | none => simpa using hy
      | some v => simpa using hm y v h
    simp only [memoLoop, List.mem_cons] at hx
    rcases hx with rfl | hx
    · exact hget j hjL
    · refine memoLoop_lt _ (i + 1) js ?_ (by simp at hi; omega) (fun y hy => hj y (by simp [hy])) x hx
      intro y v hv
      by_cases hy : y = j
      · subst hy
        simp only [Function.update_self, Option.some.injEq] at hv
        subst hv
        exact hget i (by simp at hi; omega)
      · rw [Function.update_of_ne hy] at hv
        exact hm y v hv

/-- The memoised path reads in bounds, whatever the generator does to the array. -/
theorem sampleMemo_isSome {g : Rng σ (List α)} {s : σ} {ary : List α} {n : ℕ} {res : List (Option α)}
    (h : sampleMemo g s ary n = .ok res) : ∀ x ∈ res, x.isSome := by
  obtain ⟨⟨rs, s1, a1⟩, -, h⟩ := Except.bind_eq_ok h
  cases h
  intro x hx
  obtain ⟨y, hy, rfl⟩ := List.mem_map.mp hx
  simp only [isSome_getElem?]
  -- the length re-read after the draws bounds every draw kept, and `n` itself
  set rs' := rs.mapIdx fun i r => r + i
  have hmax := (le_foldl_max rs' 0).2
  split_ifs at hy with hL
  · simp [memoLoop] at hy
  · refine memoLoop_lt (fun _ => none) 0 _ (by simp) ?_ ?_ y hy
    · simp only [List.length_take]; omega
    · intro j hj
      have := hmax j (List.mem_of_mem_take hj)
      omega

/-! ### The whole function -/

theorem sampleCopy_isSome {g : Rng σ (List α)} {s : σ} {ary : List α} {n : ℕ} {res : List (Option α)}
    (h : sampleCopy g s ary n = .ok res) : ∀ x ∈ res, x.isSome := by
  obtain ⟨⟨result, s1, a1⟩, -, h⟩ := Except.bind_eq_ok h
  cases h
  intro x hx
  obtain ⟨y, -, rfl⟩ := List.mem_map.mp hx
  rfl

/-- After the draws, every read is in bounds if the array is no shorter than the length `k` the
draws were made for and they fit below it. -/
theorem sampleRest_isSome {g : Rng σ (List α)} {s : σ} {ary : List α} {k n : ℕ} {rnds : List ℕ}
    {res : List (Option α)}
    (hk : k ≤ ary.length) (hn : n ≤ k) (hsmall : n ≤ 10 → BelowFrom k 0 rnds ∧ rnds.length = n)
    (h : sampleRest g s ary k n rnds = .ok res) : ∀ x ∈ res, x.isSome := by
  unfold sampleRest at h
  dsimp only at h
  split_ifs at h with hshrink h10 hmemo
  · cases h; simp
  · cases h
    obtain ⟨hb, hl⟩ := hsmall (by omega)
    have hmin : min n ary.length = rnds.length := by omega
    rw [hmin]
    exact sampleSmall_isSome (hb.mono hk) rfl
  · exact sampleMemo_isSome h
  · exact sampleCopy_isSome h

/-- With a generator that never shortens the array, every element `rb_ary_sample` reads is in
bounds. -/
theorem rbArySample_reads_of_not_shortened {g : Rng σ (List α)} (hg : g.NotShortening) {s : σ}
    {ary : List α} {n : ℤ} {res : List (Option α)} (h : rbArySample g s ary n = .ok res) :
    ∀ x ∈ res, x.isSome := by
  unfold rbArySample at h
  by_cases hn : n < 0
  · rw [if_pos hn] at h
    obtain ⟨_, h0, -⟩ := Except.bind_eq_ok h
    cases h0
  rw [if_neg hn] at h
  dsimp only at h
  split_ifs at h with h10
  · obtain ⟨⟨rnds, s1, a1⟩, hd, h⟩ := Except.bind_eq_ok h
    -- the draws fit below the original length, which the array keeps
    obtain ⟨hb, hl, hs⟩ := drawRnds_spec _ 0 s ary rnds s1 a1 hd (by omega)
    exact sampleRest_isSome (hs hg) (by omega) (fun _ => ⟨hb, hl⟩) h
  · simp only [pure_bind] at h
    exact sampleRest_isSome le_rfl (by omega) (fun h10' => absurd h10' h10) h

/-- A generator whose `rand` pops the array on its second call, answering `0` and then `1`. -/
def popOnSecond : Rng Unit (List ℕ) where
  rand _ ary max := if max = 3 then (0, (), ary) else (1, (), ary.dropLast)

/-- `[10, 20, 30].sample(2, random: g)` with `g` popping the array on its second draw: the
draws `0` and `1` are both below the new length `2`, but the second decodes to index `2`. -/
theorem sample_reads_past_popped_end :
    rbArySample popOnSecond () [10, 20, 30] 2 = .ok [some 10, none] := by
  rfl

end CRuby.Ary
