import CRuby.Ary.Sample
import CRuby.Lib.Select

/-!
# `Array#sample` draws distinct indices uniformly

With a generator that leaves the array alone and answers within range, `rb_ary_sample`
returns the elements at `min(n, len)` distinct indices. Each of its ways to turn the numbers
`RAND_UPTO` gave into indices is drawing without replacement (`Select.selectLoop`), so it maps
the possible draws one to one onto the tuples of distinct indices:

* the skip-insertion of `n ≤ 10`, and with it the cases `n = 1, 2, 3`, takes the `rnds[i]`-th
  index not yet taken (`skipLoop_eq_selectLoop`): the pool is the untaken indices in
  increasing order, and a draw removes one;
* the partial Fisher–Yates on a copy takes the element at `rnds[i] + i` and swaps the one at
  `i` into its place (`shuffleSwaps_eq_selectLoop`): the pool is the tail from `i`, and a draw
  moves its head into the hole (`fyNext`);
* the memoised path runs the same swaps on a permutation that the memo holds only where it
  differs from the identity (`memoLoop_eq_selectLoop`).
-/

namespace CRuby.Ary

open Select

/-! ### The skip-insertion takes the `r`-th untaken index -/

/-- The indices below `len` not in `taken`, in increasing order. -/
def untaken (len : ℕ) (taken : List ℕ) : List ℕ := (List.range len).filter (· ∉ taken)

theorem skipInsert_of_le {s k : ℕ} {ss : List ℕ} (hk : s ≤ k) :
    skipInsert (s :: ss) k = ((skipInsert ss (k + 1)).1, s :: (skipInsert ss (k + 1)).2) := by
  rw [skipInsert, if_neg (by omega)]

/-- The walk never goes below the draw. -/
theorem le_skipInsert_fst : ∀ (sorted : List ℕ) (k : ℕ), k ≤ (skipInsert sorted k).1
  | [], _ => le_refl _
  | s :: ss, k => by
    rcases Nat.lt_or_ge k s with hk | hk
    · rw [skipInsert, if_pos hk]
    · rw [skipInsert_of_le hk]
      exact (Nat.le_succ k).trans (le_skipInsert_fst ss (k + 1))

/-- The index found is inserted. -/
theorem mem_skipInsert : ∀ (sorted : List ℕ) (k y : ℕ),
    y ∈ (skipInsert sorted k).2 ↔ y = (skipInsert sorted k).1 ∨ y ∈ sorted
  | [], _, _ => by simp [skipInsert]
  | s :: ss, k, y => by
    rcases Nat.lt_or_ge k s with hk | hk
    · simp [skipInsert, hk]
    · rw [skipInsert_of_le hk, List.mem_cons, List.mem_cons, mem_skipInsert ss (k + 1) y]
      tauto

/-- The list of taken indices stays increasing. -/
theorem skipInsert_pairwise : ∀ (sorted : List ℕ) (k : ℕ), sorted.Pairwise (· < ·) →
    (skipInsert sorted k).2.Pairwise (· < ·)
  | [], _, _ => List.pairwise_singleton _ _
  | s :: ss, k, hs => by
    obtain ⟨hlt, hss⟩ := List.pairwise_cons.mp hs
    rcases Nat.lt_or_ge k s with hk | hk
    · rw [skipInsert, if_pos hk]
      refine List.Pairwise.cons (fun y hy => ?_) hs
      rcases List.mem_cons.mp hy with rfl | hy
      · exact hk
      · exact hk.trans (hlt y hy)
    · rw [skipInsert_of_le hk]
      refine List.Pairwise.cons (fun y hy => ?_) (skipInsert_pairwise ss (k + 1) hss)
      rcases (mem_skipInsert ss (k + 1) y).mp hy with rfl | hy
      · have := le_skipInsert_fst ss (k + 1)
        omega
      · exact hlt y hy

/-- Below the first taken index `s`, every index is untaken; above it, the untaken indices
with and without `s` are the same. -/
theorem untaken_cons {len s : ℕ} {ss : List ℕ} (hs : s < len) (hlt : ∀ t ∈ ss, s < t) :
    untaken len (s :: ss) =
        List.range s ++ (List.range' (s + 1) (len - (s + 1))).filter (· ∉ ss) ∧
      untaken len ss = List.range (s + 1) ++ (List.range' (s + 1) (len - (s + 1))).filter (· ∉ ss) := by
  have hsplit : List.range len = List.range (s + 1) ++ List.range' (s + 1) (len - (s + 1)) := by
    rw [List.range_eq_range', List.range_eq_range',
      show List.range' (s + 1) (len - (s + 1)) = List.range' (0 + (s + 1)) (len - (s + 1)) by
        rw [Nat.zero_add],
      List.range'_append_1, Nat.add_sub_cancel' hs]
  have hlow : ∀ y ∈ List.range (s + 1), y ∉ ss := fun y hy hmem => by
    have := hlt y hmem
    simp at hy
    omega
  have hhigh : ∀ y ∈ List.range' (s + 1) (len - (s + 1)),
      decide (y ∉ s :: ss) = decide (y ∉ ss) := fun y hy => by
    have := (List.mem_range'_1.mp hy).1
    simp [show y ≠ s by omega]
  refine ⟨?_, ?_⟩
  · rw [untaken, hsplit, List.filter_append, List.filter_congr hhigh, List.range_succ,
      List.filter_append]
    have hbelow : (List.range s).filter (· ∉ s :: ss) = List.range s :=
      List.filter_eq_self.mpr fun y hy => by
        have := List.mem_range.mp hy
        simp only [List.mem_cons, not_or, decide_eq_true_eq]
        exact ⟨by omega, hlow y (List.mem_range.mpr (by omega))⟩
    rw [hbelow]
    simp
  · rw [untaken, hsplit, List.filter_append,
      List.filter_eq_self.mpr fun y hy => decide_eq_true (hlow y hy)]

/-- **The walk finds the `k`-th untaken index**: each taken index at or below the candidate
pushes it one further. The induction is on the increasing list of taken indices. -/
theorem getElem?_untaken {len : ℕ} : ∀ (sorted : List ℕ) (k : ℕ), sorted.Pairwise (· < ·) →
    (∀ s ∈ sorted, s < len) → k < (untaken len sorted).length →
      (untaken len sorted)[k]? = some (skipInsert sorted k).1
  | [], k, _, _, hk => by
    have hnil : untaken len [] = List.range len := by simp [untaken]
    rw [hnil] at hk ⊢
    rw [List.getElem?_range (by simpa using hk)]
    rfl
  | s :: ss, k, hs, hlen, hk => by
    obtain ⟨hlt, hss⟩ := List.pairwise_cons.mp hs
    obtain ⟨hcons, htail⟩ := untaken_cons (hlen s List.mem_cons_self) hlt
    rw [hcons] at hk ⊢
    rcases Nat.lt_or_ge k s with hks | hks
    · -- below `s`: `k` itself
      rw [List.getElem?_append_left (by simpa using hks), List.getElem?_range hks, skipInsert,
        if_pos hks]
    · -- past `s`: the `k + 1`-th untaken index of the rest
      have hk' : k + 1 < (untaken len ss).length := by
        rw [htail]
        simp only [List.length_append, List.length_range] at hk ⊢
        omega
      have ih := getElem?_untaken ss (k + 1) hss (fun t ht => hlen t (List.mem_cons_of_mem _ ht)) hk'
      rw [htail, List.getElem?_append_right (by simp; omega)] at ih
      rw [List.getElem?_append_right (by simp; omega), skipInsert_of_le hks, ← ih]
      simp only [List.length_range]
      congr 1
      omega

theorem nodup_untaken (len : ℕ) (taken : List ℕ) : (untaken len taken).Nodup :=
  List.nodup_range.filter _

/-- Taking the `k`-th untaken index removes it from the untaken ones. -/
theorem untaken_skipInsert {len : ℕ} {sorted : List ℕ} {k : ℕ} (hs : sorted.Pairwise (· < ·))
    (hlen : ∀ s ∈ sorted, s < len) (hk : k < (untaken len sorted).length) :
    untaken len (skipInsert sorted k).2 = (untaken len sorted).eraseIdx k := by
  obtain ⟨_, hx⟩ := List.getElem?_eq_some_iff.mp (getElem?_untaken sorted k hs hlen hk)
  rw [← (nodup_untaken len sorted).erase_getElem k hk, hx, (nodup_untaken len sorted).erase_eq_filter,
    untaken, untaken, List.filter_filter]
  refine List.filter_congr fun y _ => ?_
  by_cases hy : y = (skipInsert sorted k).1 <;> simp [mem_skipInsert, hy]

/-- **The skip-insertion draws without replacement** from the untaken indices in increasing
order. -/
theorem skipLoop_eq_selectLoop {len : ℕ} : ∀ (sorted rs : List ℕ), sorted.Pairwise (· < ·) →
    (∀ s ∈ sorted, s < len) → Fits (untaken len sorted).length rs →
      skipLoop sorted rs = selectLoop (fun pool r => pool.eraseIdx r) 0 (untaken len sorted) rs
  | _, [], _, _, _ => rfl
  | sorted, r :: rs, hs, hlen, ⟨hr, hrs⟩ => by
    have hget := getElem?_untaken sorted r hs hlen hr
    have hlen' : ∀ s ∈ (skipInsert sorted r).2, s < len := fun s hmem => by
      rcases (mem_skipInsert sorted r s).mp hmem with rfl | hmem
      · have := List.mem_of_getElem? hget
        exact List.mem_range.mp (List.mem_filter.mp this).1
      · exact hlen s hmem
    have hrest := untaken_skipInsert hs hlen hr
    simp only [skipLoop, selectLoop, List.getD_eq_getElem?_getD, hget, Option.getD_some]
    rw [skipLoop_eq_selectLoop _ rs (skipInsert_pairwise sorted r hs) hlen'
      (by rwa [hrest, List.length_eraseIdx_of_lt hr]), hrest]

theorem lawfulNext_eraseIdx : LawfulNext (fun (pool : List ℕ) r => pool.eraseIdx r) :=
  fun _ _ _ => List.Perm.refl _

/-- The skip-insertion maps the draws one to one onto the tuples of distinct indices. -/
theorem skipLoop_bijOn (len n : ℕ) :
    Set.BijOn (skipLoop []) (draws len n) (samples (List.range len) n) := by
  have hnil : untaken len [] = List.range len := by simp [untaken]
  have h := selectLoop_bijOn lawfulNext_eraseIdx (d := 0) (List.nodup_range (n := len)) n
  rw [List.length_range] at h
  refine h.congr fun rs ⟨_, hfits⟩ => ?_
  rw [skipLoop_eq_selectLoop [] rs List.Pairwise.nil (by simp) (by rwa [hnil, List.length_range]), hnil]

/-! ### The cases `n ≤ 10` -/

/-- The indices `sampleSmall` reads: the `switch (n)` and the skip-insertion. -/
def smallIndices (n : ℕ) (rnds : List ℕ) : List ℕ :=
  let r := fun i => rnds.getD i 0
  match n with
  | 0 => []
  | 1 => [r 0]
  | 2 =>
    let (i, j) := sampleTwo (r 0) (r 1)
    [i, j]
  | 3 =>
    let (i, j, k) := sampleThree (r 0) (r 1) (r 2)
    [i, j, k]
  | n => skipLoop [] (rnds.take n)

theorem sampleSmall_eq {α : Type} (ary : List α) (n : ℕ) (rnds : List ℕ) :
    sampleSmall ary n rnds = (smallIndices n rnds).map (ary[·]?) := by
  rcases n with _ | _ | _ | _ | n <;> rfl

/-- The `n = 2` case is the skip-walk past one index. -/
theorem sampleTwo_eq_skipLoop (i j : ℕ) : [(sampleTwo i j).1, (sampleTwo i j).2] = skipLoop [] [i, j] := by
  simp only [sampleTwo, skipLoop, skipInsert]
  split_ifs <;> simp <;> omega

/-- The `n = 3` case, with its two comparisons, is the skip-walk past two sorted indices. -/
theorem sampleThree_eq_skipLoop (i j k : ℕ) :
    [(sampleThree i j k).1, (sampleThree i j k).2.1, (sampleThree i j k).2.2] = skipLoop [] [i, j, k] := by
  simp only [sampleThree, skipLoop, skipInsert]
  split_ifs <;> simp only [skipInsert] <;> split_ifs <;> simp <;> omega

theorem smallIndices_eq_skipLoop : ∀ {n : ℕ} {rs : List ℕ}, rs.length = n →
    smallIndices n rs = skipLoop [] rs
  | 0, [], _ => rfl
  | 1, [_], _ => rfl
  | 2, [i, j], _ => sampleTwo_eq_skipLoop i j
  | 3, [i, j, k], _ => sampleThree_eq_skipLoop i j k
  | n + 4, rs, h => by
    simp only [smallIndices]
    rw [List.take_of_length_le h.le]

/-- The cases `n ≤ 10` map the draws one to one onto the tuples of distinct indices. -/
theorem smallIndices_bijOn (len n : ℕ) :
    Set.BijOn (smallIndices n) (draws len n) (samples (List.range len) n) :=
  (skipLoop_bijOn len n).congr fun _ ⟨hlen, _⟩ => (smallIndices_eq_skipLoop hlen).symm

/-! ### The partial Fisher–Yates -/

section FisherYates

variable {β : Type}

/-- The pool after a draw of the partial Fisher–Yates: the element at `r` leaves, and the head
takes its place. -/
def fyNext : List β → ℕ → List β
  | [], _ => []
  | _ :: rest, 0 => rest
  | a :: rest, r + 1 => rest.set r a

theorem lawfulNext_fyNext : LawfulNext (@fyNext β)
  | [], _, h => absurd h (Nat.not_lt_zero _)
  | _ :: _, 0, _ => List.Perm.refl _
  | a :: rest, r + 1, h => by
    simp only [fyNext, List.eraseIdx_cons_succ]
    rw [List.set_eq_take_append_cons_drop, if_pos (by simpa using h), List.eraseIdx_eq_take_drop_succ]
    exact List.perm_middle

/-- The swaps of the partial Fisher–Yates for the draws `rs` from place `i` on: the place `i`
with the place `rs[t] + i`. -/
def shuffleSwaps : List β → ℕ → List ℕ → List β
  | result, _, [] => result
  | result, i, r :: rs => shuffleSwaps (swapAt result i (r + i)) (i + 1) rs

theorem getElem?_swapAt_of_ne {a : List β} {i j p : ℕ} (hi : p ≠ i) (hj : p ≠ j) :
    (swapAt a i j)[p]? = a[p]? := by
  unfold swapAt
  split <;> simp [Ne.symm hi, Ne.symm hj]

theorem length_shuffleSwaps : ∀ (result : List β) (i : ℕ) (rs : List ℕ),
    (shuffleSwaps result i rs).length = result.length
  | _, _, [] => rfl
  | result, i, r :: rs => by rw [shuffleSwaps, length_shuffleSwaps, length_swapAt]

/-- The places before `i` are done. -/
theorem getElem?_shuffleSwaps_of_lt : ∀ (result : List β) (i : ℕ) (rs : List ℕ) (p : ℕ), p < i →
    (shuffleSwaps result i rs)[p]? = result[p]?
  | _, _, [], _, _ => rfl
  | result, i, r :: rs, p, hp => by
    rw [shuffleSwaps, getElem?_shuffleSwaps_of_lt _ (i + 1) rs p (by omega),
      getElem?_swapAt_of_ne (by omega) (by omega)]

/-- **One swap is one draw**: the place `i` gets the element at `r` of the tail from `i`, and
the tail after it is the pool `fyNext` leaves. -/
theorem swapAt_drop {a : List β} {i r : ℕ} (hr : r + i < a.length) :
    (swapAt a i (r + i))[i]? = (a.drop i)[r]? ∧
      (swapAt a i (r + i)).drop (i + 1) = fyNext (a.drop i) r := by
  have hi : i < a.length := by omega
  refine ⟨?_, List.ext_getElem? fun t => ?_⟩
  · rw [getElem?_swapAt hi hr, List.getElem?_drop, Nat.add_comm i r]
    by_cases h0 : r = 0
    · subst h0
      simp
    · rw [if_neg (by omega), if_pos rfl]
  · rw [List.getElem?_drop, getElem?_swapAt hi hr, List.drop_eq_getElem_cons hi]
    rcases r with _ | r
    · simp only [fyNext, List.getElem?_drop]
      rw [if_neg (by omega), if_neg (by omega), Nat.add_right_comm]
    · simp only [fyNext, List.getElem?_set, List.getElem?_drop, List.length_drop]
      by_cases ht : r = t
      · subst ht
        rw [if_pos (by omega), if_pos rfl, if_pos (by omega), List.getElem?_eq_getElem hi]
      · rw [if_neg (by omega), if_neg (by omega), if_neg ht, Nat.add_right_comm]

/-- **The partial Fisher–Yates draws without replacement**: the places `i, i + 1, …` after
the swaps hold what drawing from the tail from `i` gives. The induction is on the draws, with
the list after each swap. -/
theorem shuffleSwaps_eq_selectLoop (d : β) : ∀ (rs : List ℕ) (a : List β) (i : ℕ),
    Fits (a.length - i) rs → ((shuffleSwaps a i rs).drop i).take rs.length = selectLoop fyNext d (a.drop i) rs
  | [], _, _, _ => by simp [selectLoop]
  | r :: rs, a, i, ⟨hr, hrs⟩ => by
    have hri : r + i < a.length := by omega
    obtain ⟨hhead, htail⟩ := swapAt_drop hri
    have hlen : i < (shuffleSwaps a i (r :: rs)).length := by
      rw [length_shuffleSwaps]
      omega
    have hget : (shuffleSwaps a i (r :: rs))[i]? = (a.drop i)[r]? := by
      rw [shuffleSwaps, getElem?_shuffleSwaps_of_lt _ (i + 1) rs i (by omega), hhead]
    rw [List.drop_eq_getElem_cons hlen, List.length_cons, List.take_succ_cons, selectLoop,
      List.getD_eq_getElem?_getD, ← hget, List.getElem?_eq_getElem hlen, Option.getD_some, ← htail]
    congr 1
    exact shuffleSwaps_eq_selectLoop d rs _ (i + 1) (by rw [length_swapAt]; omega)

end FisherYates

/-- The indices the copy path keeps: the first `n` places of the shuffled `0, …, len - 1`. -/
def copyIndices (len n : ℕ) (rs : List ℕ) : List ℕ := (shuffleSwaps (List.range len) 0 rs).take n

/-- The copy path maps the draws one to one onto the tuples of distinct indices. -/
theorem copyIndices_bijOn (len n : ℕ) :
    Set.BijOn (copyIndices len n) (draws len n) (samples (List.range len) n) := by
  have h := selectLoop_bijOn lawfulNext_fyNext (d := 0) (List.nodup_range (n := len)) n
  rw [List.length_range] at h
  refine h.congr fun rs ⟨hlen, hfits⟩ => ?_
  have := shuffleSwaps_eq_selectLoop 0 rs (List.range len) 0 (by simpa using hfits)
  rw [List.drop_zero, List.drop_zero, hlen] at this
  exact this.symm

/-! ### The memoised path -/

/-- **The memoised path is the Fisher–Yates on a virtual permutation**: from `i` on, the list
`a` holds at each place `p` the entry the memo gives (`p` itself where it holds none), and the
memo path reads what the swaps of `a` would. -/
theorem memoLoop_eq_selectLoop : ∀ (rs : List ℕ) (memo : ℕ → Option ℕ) (i : ℕ) (a : List ℕ),
    (∀ p, i ≤ p → p < a.length → a[p]? = some ((memo p).getD p)) → Fits (a.length - i) rs →
      memoLoop memo i (rs.mapIdx fun t r => r + (i + t)) = selectLoop fyNext 0 (a.drop i) rs
  | [], _, _, _, _, _ => rfl
  | r :: rs, memo, i, a, hinv, ⟨hr, hrs⟩ => by
    have hri : r + i < a.length := by omega
    obtain ⟨-, htail⟩ := swapAt_drop hri
    have hj := hinv (r + i) (by omega) hri
    have hi := hinv i le_rfl (by omega)
    -- after the swap the memo holds the entry of place `i` at place `r + i`
    have hinv' : ∀ p, i + 1 ≤ p → p < (swapAt a i (r + i)).length →
        (swapAt a i (r + i))[p]? =
          some ((Function.update memo (r + i) (some ((memo i).getD i)) p).getD p) := by
      intro p hp hpl
      rw [length_swapAt] at hpl
      rw [getElem?_swapAt (by omega) hri, Function.update_apply]
      by_cases hpj : p = r + i
      · rw [if_pos hpj, if_pos hpj, hi, Option.getD_some]
      · rw [if_neg hpj, if_neg hpj, if_neg (by omega), hinv p (by omega) hpl]
    have hidx : (rs.mapIdx fun t r => r + (i + (t + 1))) = rs.mapIdx fun t r => r + (i + 1 + t) := by
      congr 1
      funext t r
      omega
    rw [List.mapIdx_cons, memoLoop, selectLoop, List.getD_eq_getElem?_getD, List.getElem?_drop,
      Nat.add_comm i r, hj, hidx, Nat.add_zero,
      memoLoop_eq_selectLoop rs _ (i + 1) _ hinv' (by rw [length_swapAt]; omega), htail]
    rfl

/-- The indices the memoised path reads, for the draws `rs`. -/
def memoIndices (rs : List ℕ) : List ℕ := memoLoop (fun _ => none) 0 (rs.mapIdx fun i r => r + i)

theorem memoIndices_eq_selectLoop {len : ℕ} {rs : List ℕ} (h : Fits len rs) :
    memoIndices rs = selectLoop fyNext 0 (List.range len) rs := by
  have := memoLoop_eq_selectLoop rs (fun _ => none) 0 (List.range len)
    (fun p _ hp => by simp [List.getElem?_range (by simpa using hp)]) (by simpa using h)
  simpa [memoIndices] using this

/-- The memoised path maps the draws one to one onto the tuples of distinct indices. -/
theorem memoIndices_bijOn (len n : ℕ) :
    Set.BijOn memoIndices (draws len n) (samples (List.range len) n) := by
  have h := selectLoop_bijOn lawfulNext_fyNext (d := 0) (List.nodup_range (n := len)) n
  rw [List.length_range] at h
  exact h.congr fun _ ⟨_, hfits⟩ => (memoIndices_eq_selectLoop hfits).symm

/-! ### `rb_ary_sample` reads at the decoded indices -/

section Sample

variable {σ α : Type} {g : Rng σ (List α)}

/-- A generator that leaves the array as it is. -/
def Rng.Unmodifying (g : Rng σ (List α)) : Prop := ∀ s ary max, (g.rand s ary max).2.2 = ary

/-- A generator whose `rand(max)` answers in `[0, max)` for every positive `max`. -/
def Rng.InRange (g : Rng σ (List α)) : Prop :=
  ∀ s ary max, 0 < max → 0 ≤ (g.rand s ary max).1 ∧ (g.rand s ary max).1 < max

theorem belowFrom_iff_fits {len : ℕ} : ∀ (i : ℕ) (rs : List ℕ), BelowFrom len i rs ↔ Fits (len - i) rs
  | _, [] => Iff.rfl
  | i, r :: rs => by
    rw [BelowFrom, fits_cons, belowFrom_iff_fits (i + 1) rs, Nat.sub_sub]
    exact and_congr_left fun _ => by omega

/-- With such a generator a draw succeeds, within its range, and leaves the array. -/
theorem randUpto_of_inRange (hg : g.Unmodifying) (hr : g.InRange) (s : σ) (ary : List α) {max : ℕ}
    (hmax : 0 < max) : ∃ r s', r < max ∧ randUpto g s ary max = .ok (r, s', ary) := by
  obtain ⟨h0, hlt⟩ := hr s ary max hmax
  have hary := hg s ary max
  unfold randUpto
  rcases hv : g.rand s ary max with ⟨v, s1, a1⟩
  rw [hv] at h0 hlt hary
  dsimp only at h0 hlt hary ⊢
  subst hary
  refine ⟨v.toNat, s1, by omega, ?_⟩
  rw [if_neg (by omega), if_neg (by omega)]

/-- With such a generator all draws succeed and leave the array. -/
theorem drawRnds_ok (hg : g.Unmodifying) (hr : g.InRange) (len : ℕ) (ary : List α) :
    ∀ (c i : ℕ) (s : σ), i + c ≤ len → ∃ rs s', drawRnds g len c i s ary = .ok (rs, s', ary)
  | 0, _, s, _ => ⟨[], s, rfl⟩
  | c + 1, i, s, hc => by
    obtain ⟨r, s1, -, hrand⟩ := randUpto_of_inRange hg hr s ary (show 0 < len - i by omega)
    obtain ⟨rs, s', hrs⟩ := drawRnds_ok hg hr len ary c (i + 1) s1 (by omega)
    refine ⟨r :: rs, s', ?_⟩
    rw [drawRnds, hrand]
    simp only [bind, Except.bind, hrs]
    rfl

/-- The copy path makes the draws `drawRnds` makes and swaps as they say. -/
theorem copyLoop_eq {len : ℕ} : ∀ (c i : ℕ) (s : σ) (ary result : List α) (rs : List ℕ) (s' : σ)
    (ary' : List α), drawRnds g len c i s ary = .ok (rs, s', ary') →
      copyLoop g len c i s ary result = .ok (shuffleSwaps result i rs, s', ary')
  | 0, _, _, _, _, _, _, _, h => by
    cases h
    rfl
  | c + 1, i, s, ary, result, rs, s', ary', h => by
    obtain ⟨⟨r, s1, a1⟩, hrand, h⟩ := Except.bind_eq_ok h
    obtain ⟨⟨rs', s2, a2⟩, hrest, h⟩ := Except.bind_eq_ok h
    cases h
    rw [copyLoop, hrand]
    exact copyLoop_eq c (i + 1) s1 a1 _ rs' s' ary' hrest

theorem swapAt_map {β : Type} (f : α → β) (a : List α) (i j : ℕ) :
    swapAt (a.map f) i j = (swapAt a i j).map f := by
  unfold swapAt
  rw [List.getElem?_map, List.getElem?_map]
  cases a[i]? <;> cases a[j]? <;> simp [List.map_set]

theorem shuffleSwaps_map {β : Type} (f : α → β) :
    ∀ (a : List α) (i : ℕ) (rs : List ℕ), shuffleSwaps (a.map f) i rs = (shuffleSwaps a i rs).map f
  | _, _, [] => rfl
  | a, i, r :: rs => by rw [shuffleSwaps, shuffleSwaps, swapAt_map, shuffleSwaps_map f _ (i + 1) rs]

theorem map_getElem?_range (a : List α) : (List.range a.length).map (a[·]?) = a.map some :=
  List.ext_getElem? fun t => by
    by_cases ht : t < a.length
    · simp [ht]
    · simp [ht]

theorem foldl_max_lt {len : ℕ} : ∀ (rs : List ℕ) (acc : ℕ), acc < len → (∀ r ∈ rs, r < len) →
    rs.foldl max acc < len
  | [], _, hacc, _ => hacc
  | r :: rs, acc, hacc, hrs =>
    foldl_max_lt rs (max acc r) (max_lt hacc (hrs r List.mem_cons_self))
      fun x hx => hrs x (List.mem_cons_of_mem _ hx)

/-- The memoised path with draws that fit: the length after them exceeds every draw, so all
`n` indices are read. -/
theorem sampleMemo_eq {s s' : σ} {ary : List α} {n : ℕ} {rs : List ℕ}
    (hd : drawRnds g ary.length n 0 s ary = .ok (rs, s', ary)) (hb : BelowFrom ary.length 0 rs)
    (hl : rs.length = n) (hn : n ≤ ary.length) (hpos : 0 < ary.length) :
    sampleMemo g s ary n = .ok ((memoIndices rs).map (ary[·]?)) := by
  have hmax : (rs.mapIdx fun i r => r + i).foldl max 0 < ary.length := by
    refine foldl_max_lt _ 0 hpos fun x hx => ?_
    obtain ⟨t, ht, rfl⟩ := List.mem_mapIdx.mp hx
    have := hb.getD_lt t ht
    rw [List.getD_eq_getElem _ _ ht, Nat.zero_add] at this
    exact this
  rw [sampleMemo, hd]
  simp only [bind, Except.bind, pure, Except.pure]
  rw [if_neg (by omega), min_eq_left hn, List.take_of_length_le (by simp [hl])]
  rfl

/-- The index tuple the path of `rb_ary_sample` decodes from the draws `rs`, for `m` elements of
an array of length `len`: the skip-insertion for `m ≤ 10`, the memoised virtual shuffle for
`m ≤ memo_threshold / 2`, the shuffled copy otherwise. -/
def sampleIndices (len m : ℕ) (rs : List ℕ) : List ℕ :=
  if m ≤ 10 then smallIndices m rs
  else if m ≤ memoThreshold len / 2 then memoIndices rs
  else copyIndices len m rs

/-- Whichever path it takes, the decoding maps the draws one to one onto the tuples of
distinct indices. -/
theorem sampleIndices_bijOn (len m : ℕ) :
    Set.BijOn (sampleIndices len m) (draws len m) (samples (List.range len) m) := by
  unfold sampleIndices
  split_ifs
  · exact smallIndices_bijOn len m
  · exact memoIndices_bijOn len m
  · exact copyIndices_bijOn len m

/-- **`rb_ary_sample` reads at the indices its draws decode to**: with a generator that leaves
the array and answers within range, the `RAND_UPTO(len - i)` values `rs` the generator returns
fit, and `ary.sample(n)` is the elements at `sampleIndices len m rs`, for `m = min(n, len)`. -/
theorem rbArySample_eq_indices (hg : g.Unmodifying) (hr : g.InRange) (s : σ) (ary : List α) (n : ℤ)
    (hn : 0 ≤ n) : ∃ rs s', rs ∈ draws ary.length (min n.toNat ary.length) ∧
      drawRnds g ary.length (min n.toNat ary.length) 0 s ary = .ok (rs, s', ary) ∧
      rbArySample g s ary n =
        .ok ((sampleIndices ary.length (min n.toNat ary.length) rs).map (ary[·]?)) := by
  have hm : min n.toNat ary.length ≤ ary.length := min_le_right _ _
  obtain ⟨rs, s', hd⟩ := drawRnds_ok hg hr ary.length ary (min n.toNat ary.length) 0 s (by omega)
  obtain ⟨hb, hl, -⟩ := drawRnds_spec _ 0 s ary rs s' ary hd (by omega)
  have hdraws : rs ∈ draws ary.length (min n.toNat ary.length) :=
    ⟨hl, by simpa using (belowFrom_iff_fits 0 rs).mp hb⟩
  refine ⟨rs, s', hdraws, hd, ?_⟩
  unfold rbArySample sampleIndices
  rw [if_neg (not_lt.mpr hn)]
  dsimp only
  simp only [pure_bind]
  by_cases h10 : min n.toNat ary.length ≤ 10
  · -- the cases `n ≤ 10`, after the draws
    rw [if_pos h10, hd]
    simp only [bind, Except.bind]
    rw [sampleRest, if_neg (by omega), min_eq_left hm, if_pos h10, sampleSmall_eq, if_pos h10]
  rw [if_neg h10, sampleRest, if_neg (by omega), min_eq_left hm, if_neg h10, if_neg h10]
  split_ifs with hmemo
  · -- the memoised path
    rw [sampleMemo_eq hd hb hl hm (by omega)]
  · -- the shuffled copy
    rw [sampleCopy, copyLoop_eq _ 0 s ary ary rs s' ary hd]
    simp only [bind, Except.bind, pure, Except.pure, copyIndices]
    -- the copy is shuffled as the indices are
    rw [List.map_take, List.map_take, ← shuffleSwaps_map, ← shuffleSwaps_map, map_getElem?_range]

end Sample

/-- A generator whose `rand` answers `0` and changes nothing. -/
def zeroRng (σ α : Type) : Rng σ (List α) where
  rand s ary _ := (0, s, ary)

end CRuby.Ary
