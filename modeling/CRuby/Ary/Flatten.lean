import Mathlib.Data.Fintype.Card
import CRuby.Lib.Except

/-!
# `flatten` (array.c)

`flatten(ary, level, &modified)` walks the array graph depth first without recursion: an
explicit stack of `(array, index)` frames, and an `st_table` memo of the arrays on the current
path, inserted on descent and deleted on ascent. An element is kept as it is when the stack
is `level` frames deep (`level >= 0`) or when `rb_check_array_type` gives no array; otherwise
the array it gives is entered, unless the memo holds it already, in which case
`"tried to flatten recursive array"` is raised.

The heap is an `AryGraph`: each array's elements, and `rb_check_array_type` of an element as
the array it is or converts to by `to_ary`. Its arrays are the values of a finite type: a heap
holds finitely many. The loop is `flattenLoop`, run with fuel. `flatSpec` is the recursive
definition it is compared with: it takes a remaining level, which counts down on each descent,
and the ancestor path. `flattenLoop_run` states that the loop runs the recursion, frame by
frame, and `flatten_eq_flatSpec` that it ends with its answer. `flatSpec` raises exactly when
an array reached within the level occurs on its own ancestor path (`flatSpec_error_iff`), and
reports a change exactly when an element of the array was expanded (`flatSpec_modified_iff`).
-/

namespace CRuby.Ary

/-- The arrays a flatten can reach: the elements of each, and `rb_check_array_type` of an
element, the array it is or that its `to_ary` returns. -/
structure AryGraph (ι V : Type) where
  elems : ι → List V
  checkArrayType : V → Option ι

variable {ι V : Type}

/-- The message of the `ArgumentError` for a cycle. -/
def recursiveArrayError : String := "tried to flatten recursive array"

/-- The locals of `flatten`: `ary` and `i`, the stack, the result, the memo, `*modified`. The
source's stack holds two `VALUE`s a frame, so `RARRAY_LEN(stack) / 2` is `stack.length` here;
the memo is the list of the arrays it holds, the last inserted first. -/
structure FlattenState (ι V : Type) where
  ary : ι
  i : ℕ
  stack : List (ι × ℕ)
  result : List V
  memo : List ι
  modified : Bool

section Loop

variable [DecidableEq ι] (g : AryGraph ι V) (level : ℤ)

/-- `rb_ary_push(result, elt)` after `elt = RARRAY_AREF(ary, i++)`. -/
def FlattenState.keep (s : FlattenState ι V) (elt : V) : FlattenState ι V :=
  { s with i := s.i + 1, result := s.result ++ [elt] }

/-- Entering `tmp` after `elt = RARRAY_AREF(ary, i++)`: the memo takes it, the stack takes
`ary` and `i`. -/
def FlattenState.enter (s : FlattenState ι V) (tmp : ι) : FlattenState ι V :=
  { ary := tmp, i := 0, stack := (s.ary, s.i + 1) :: s.stack, result := s.result,
    memo := tmp :: s.memo, modified := true }

/-- The pop after the inner `while`: `ary` leaves the memo, the frame below is resumed. -/
def FlattenState.leave (s : FlattenState ι V) (a : ι) (i : ℕ) (stack : List (ι × ℕ)) :
    FlattenState ι V :=
  { s with ary := a, i := i, stack := stack, memo := s.memo.erase s.ary }

/-- The depth test `level >= 0 && RARRAY_LEN(stack) / 2 >= level`. -/
def FlattenState.deep (s : FlattenState ι V) (level : ℤ) : Prop :=
  0 ≤ level ∧ level ≤ s.stack.length

instance (s : FlattenState ι V) (level : ℤ) : Decidable (s.deep level) :=
  inferInstanceAs (Decidable (0 ≤ level ∧ level ≤ s.stack.length))

/-- One turn of `flatten`'s loops: an element of the inner `while`, or the pop after it. The
answer is the next state, or the result and `*modified` when the stack is empty. -/
def flattenStep (s : FlattenState ι V) : Except String (FlattenState ι V ⊕ (List V × Bool)) :=
  match (g.elems s.ary)[s.i]? with
  | some elt =>
    if s.deep level then .ok (.inl (s.keep elt))
    else
      match g.checkArrayType elt with
      | none => .ok (.inl (s.keep elt))
      | some tmp =>
        if tmp ∈ s.memo then .error recursiveArrayError
        else .ok (.inl (s.enter tmp))
  | none =>
    match s.stack with
    | [] => .ok (.inr (s.result, s.modified))
    | (a, i) :: stack => .ok (.inl (s.leave a i stack))

/-- The loop `while (1)` with `fuel` turns; `none` when they run out. -/
def flattenLoop : ℕ → FlattenState ι V → Option (Except String (List V × Bool))
  | 0, _ => none
  | fuel + 1, s =>
    match flattenStep g level s with
    | .error e => some (.error e)
    | .ok (.inr r) => some (.ok r)
    | .ok (.inl s') => flattenLoop fuel s'

/-- `flatten(ary, level, &modified)`: the result's elements and `*modified`. -/
def flatten (ary : ι) (fuel : ℕ) : Option (Except String (List V × Bool)) :=
  flattenLoop g level fuel ⟨ary, 0, [], [], [ary], false⟩

/-- `rb_ary_flatten`: the level is `-1` without an argument, and level 0 answers a copy of the
array without calling `flatten`. -/
def rbAryFlatten (lv : Option ℤ) (ary : ι) (fuel : ℕ) : Option (Except String (List V)) :=
  if lv.getD (-1) = 0 then some (.ok (g.elems ary))
  else (flatten g (lv.getD (-1)) ary fuel).map (Except.map Prod.fst)

/-- `rb_ary_flatten_bang`: `nil` for level 0 and when nothing was expanded, else the array's
new contents. -/
def rbAryFlattenBang (lv : Option ℤ) (ary : ι) (fuel : ℕ) : Option (Except String (Option (List V))) :=
  if lv.getD (-1) = 0 then some (.ok none)
  else (flatten g (lv.getD (-1)) ary fuel).map (Except.map fun (r, m) => if m then some r else none)

end Loop

/-! ### One turn of the loop -/

section Step

variable [DecidableEq ι] (g : AryGraph ι V) (level : ℤ) {s s' : FlattenState ι V}

theorem flattenStep_keep {v : V} (hget : (g.elems s.ary)[s.i]? = some v)
    (h : s.deep level ∨ g.checkArrayType v = none) :
    flattenStep g level s = .ok (.inl (s.keep v)) := by
  simp only [flattenStep, hget]
  rcases h with hdeep | hv
  · rw [if_pos hdeep]
  · split_ifs
    · rfl
    · rw [hv]

theorem flattenStep_enter {v : V} {b : ι} (hget : (g.elems s.ary)[s.i]? = some v)
    (hdeep : ¬s.deep level) (hv : g.checkArrayType v = some b) (hb : b ∉ s.memo) :
    flattenStep g level s = .ok (.inl (s.enter b)) := by
  simp only [flattenStep, hget, if_neg hdeep, hv]
  exact if_neg hb

theorem flattenStep_recursive {v : V} {b : ι} (hget : (g.elems s.ary)[s.i]? = some v)
    (hdeep : ¬s.deep level) (hv : g.checkArrayType v = some b) (hb : b ∈ s.memo) :
    flattenStep g level s = .error recursiveArrayError := by
  simp only [flattenStep, hget, if_neg hdeep, hv]
  exact if_pos hb

theorem flattenStep_leave {a : ι} {i : ℕ} {stack : List (ι × ℕ)}
    (hget : (g.elems s.ary)[s.i]? = none) (hst : s.stack = (a, i) :: stack) :
    flattenStep g level s = .ok (.inl (s.leave a i stack)) := by
  simp only [flattenStep, hget, hst]

theorem flattenStep_done (hget : (g.elems s.ary)[s.i]? = none) (hst : s.stack = []) :
    flattenStep g level s = .ok (.inr (s.result, s.modified)) := by
  simp only [flattenStep, hget, hst]

theorem flattenLoop_of_inl (n : ℕ) (h : flattenStep g level s = .ok (.inl s')) :
    flattenLoop g level (n + 1) s = flattenLoop g level n s' := by
  rw [flattenLoop, h]

theorem flattenLoop_of_error (n : ℕ) {e : String} (h : flattenStep g level s = .error e) :
    flattenLoop g level (n + 1) s = some (.error e) := by
  rw [flattenLoop, h]

theorem flattenLoop_of_inr (n : ℕ) {r : List V × Bool} (h : flattenStep g level s = .ok (.inr r)) :
    flattenLoop g level (n + 1) s = some (.ok r) := by
  rw [flattenLoop, h]

end Step

/-! ### The recursive definition -/

/-- Keep `v` in front of the flattening of the rest. -/
def keepElem (v : V) (e : Except String (List V × Bool)) : Except String (List V × Bool) :=
  e.map fun (r, m) => (v :: r, m)

@[simp]
theorem keepElem_ok (v : V) (r : List V) (m : Bool) : keepElem v (.ok (r, m)) = .ok (v :: r, m) := rfl

@[simp]
theorem keepElem_error (v : V) (e : String) : keepElem v (.error e) = .error e := rfl

section Spec

variable [DecidableEq ι] (g : AryGraph ι V)

/-- Flattening the elements `vs` of the first array of `path` below its ancestors, the rest of
`path`, with `lv` levels left (`lv < 0`: no limit): each element is kept when no level is left
or it is no array, and raises when it is an array on the path; otherwise its array is flattened
with one level less and put in its place. The answer's flag tells whether an element was
expanded. -/
def flatSpec [Fintype ι] (lv : ℤ) (path : List ι) (hp : path.Nodup) : List V → Except String (List V × Bool)
  | [] => .ok ([], false)
  | v :: vs =>
    if lv = 0 then keepElem v (flatSpec lv path hp vs)
    else
      match g.checkArrayType v with
      | none => keepElem v (flatSpec lv path hp vs)
      | some b =>
        if hb : b ∈ path then .error recursiveArrayError
        else do
          let (r1, _) ← flatSpec (lv - 1) (b :: path) (hp.cons hb) (g.elems b)
          let (r2, _) ← flatSpec lv path hp vs
          pure (r1 ++ r2, true)
termination_by vs => (Fintype.card ι - path.length, vs.length)
decreasing_by
  · exact Prod.Lex.right _ (Nat.lt_succ_self _)
  · exact Prod.Lex.right _ (Nat.lt_succ_self _)
  · -- the path grows by an array it did not hold, and a path without repeats fits in `ι`
    have hlen := (hp.cons hb).length_le_card
    simp only [List.length_cons] at hlen ⊢
    exact Prod.Lex.left _ _ (by omega)
  · exact Prod.Lex.right _ (Nat.lt_succ_self _)

end Spec

section SpecEq

variable [DecidableEq ι] [Fintype ι] (g : AryGraph ι V) {lv : ℤ} {path : List ι} (hp : path.Nodup)
  {v : V} {vs : List V} {b : ι}

@[simp]
theorem flatSpec_nil : flatSpec g lv path hp [] = .ok ([], false) := by
  rw [flatSpec]

theorem flatSpec_keep (h : lv = 0 ∨ g.checkArrayType v = none) :
    flatSpec g lv path hp (v :: vs) = keepElem v (flatSpec g lv path hp vs) := by
  rw [flatSpec]
  rcases h with hlv | hv
  · rw [if_pos hlv]
  · split_ifs
    · rfl
    · rw [hv]

theorem flatSpec_recursive (hlv : lv ≠ 0) (hv : g.checkArrayType v = some b) (hb : b ∈ path) :
    flatSpec g lv path hp (v :: vs) = .error recursiveArrayError := by
  rw [flatSpec, if_neg hlv, hv]
  exact dif_pos hb

theorem flatSpec_enter (hlv : lv ≠ 0) (hv : g.checkArrayType v = some b) (hb : b ∉ path) :
    flatSpec g lv path hp (v :: vs) =
      flatSpec g (lv - 1) (b :: path) (hp.cons hb) (g.elems b) >>= fun p =>
        flatSpec g lv path hp vs >>= fun q => .ok (p.1 ++ q.1, true) := by
  rw [flatSpec, if_neg hlv, hv]
  exact dif_neg hb

end SpecEq

/-! ### The loop runs the recursion -/

section Run

variable (g : AryGraph ι V) (level : ℤ)

/-- `s` is inside the traversal of the first array of `path`, below the rest of `path`, with
the elements `vs` left to read and `lv` levels left: the memo is the path, the stack is as deep
as the path below the array, and within the level. -/
structure Frame (s : FlattenState ι V) (lv : ℤ) (path : List ι) (vs : List V) : Prop where
  memo_eq : s.memo = path
  drop_eq : (g.elems s.ary).drop s.i = vs
  level_eq : lv = level - s.stack.length
  depth_le : level < 0 ∨ (s.stack.length : ℤ) ≤ level

/-- The loop once a traversal from `s` over `len` elements has given `res`: raised, or standing
`len` elements further with the flattening appended, and `n` turns left. -/
def loopAfter [DecidableEq ι] (n : ℕ) (s : FlattenState ι V) (len : ℕ) :
    Except String (List V × Bool) → Option (Except String (List V × Bool))
  | .error e => some (.error e)
  | .ok (r, m) => flattenLoop g level n
      { s with i := s.i + len, result := s.result ++ r, modified := s.modified || m }

variable {g level} {s : FlattenState ι V} {lv : ℤ} {path : List ι} {v : V} {vs : List V}

/-- The code's depth test is the recursion's test for no level left. -/
theorem Frame.deep_iff (hs : Frame g level s lv path vs) : s.deep level ↔ lv = 0 := by
  have h1 := hs.level_eq
  have h2 := hs.depth_le
  simp only [FlattenState.deep]
  omega

theorem Frame.getElem? (hs : Frame g level s lv path (v :: vs)) :
    (g.elems s.ary)[s.i]? = some v := by
  rw [← List.head?_drop, hs.drop_eq, List.head?_cons]

theorem Frame.keep (hs : Frame g level s lv path (v :: vs)) : Frame g level (s.keep v) lv path vs where
  memo_eq := hs.memo_eq
  drop_eq := by
    rw [FlattenState.keep, ← List.drop_drop, hs.drop_eq, List.drop_one, List.tail_cons]
  level_eq := hs.level_eq
  depth_le := hs.depth_le

/-- Entering an array one level down. -/
theorem Frame.enter (hs : Frame g level s lv path (v :: vs)) (hlv : lv ≠ 0) (b : ι) :
    Frame g level (s.enter b) (lv - 1) (b :: path) (g.elems b) where
  memo_eq := by rw [FlattenState.enter, hs.memo_eq]
  drop_eq := List.drop_zero
  level_eq := by
    have h := hs.level_eq
    simp only [FlattenState.enter, List.length_cons]
    omega
  depth_le := by
    have h1 := hs.level_eq
    have h2 := hs.depth_le
    simp only [FlattenState.enter, List.length_cons]
    omega

/-- Back from an array entered from `s`, with its flattening `r` in the result. -/
theorem Frame.resume (hs : Frame g level s lv path (v :: vs)) (r : List V) :
    Frame g level ⟨s.ary, s.i + 1, s.stack, s.result ++ r, s.memo, true⟩ lv path vs where
  memo_eq := hs.memo_eq
  drop_eq := by rw [← List.drop_drop, hs.drop_eq, List.drop_one, List.tail_cons]
  level_eq := hs.level_eq
  depth_le := hs.depth_le

section Dec

variable [DecidableEq ι]

/-- A kept element is one more element of the traversal. -/
theorem loopAfter_keep (n : ℕ) (s : FlattenState ι V) (v : V) (len : ℕ)
    (res : Except String (List V × Bool)) :
    loopAfter g level n (s.keep v) len res = loopAfter g level n s (len + 1) (keepElem v res) := by
  rcases res with e | ⟨r, m⟩
  · rfl
  · simp [loopAfter, FlattenState.keep, Nat.add_assoc, Nat.add_comm 1]

/-- The pop after the traversal of `b` ends: `b` leaves the memo and `s`'s frame resumes. -/
theorem flattenStep_after_enter (s : FlattenState ι V) (b : ι) (r : List V) (m : Bool) :
    flattenStep g level ⟨(s.enter b).ary, (s.enter b).i + (g.elems b).length, (s.enter b).stack,
        (s.enter b).result ++ r, (s.enter b).memo, (s.enter b).modified || m⟩ =
      .ok (.inl ⟨s.ary, s.i + 1, s.stack, s.result ++ r, s.memo, true⟩) := by
  rw [flattenStep_leave g level (by simp [FlattenState.enter]) rfl]
  simp [FlattenState.leave, FlattenState.enter]

/-- The rest of the array after an entered one is the rest of the traversal. -/
theorem loopAfter_resume (n : ℕ) (s : FlattenState ι V) (len : ℕ) (r1 : List V)
    (res : Except String (List V × Bool)) :
    loopAfter g level n ⟨s.ary, s.i + 1, s.stack, s.result ++ r1, s.memo, true⟩ len res =
      loopAfter g level n s (len + 1) (res >>= fun q => .ok (r1 ++ q.1, true)) := by
  rcases res with e | ⟨r, m⟩
  · rfl
  · simp [loopAfter, bind, Except.bind, Nat.add_assoc, Nat.add_comm 1]

/-- **The loop runs the recursion.** From a state inside the traversal of an array, the loop
takes some turns and then either raises what `flatSpec` raises or stands at the array's end
with `flatSpec`'s flattening appended to the result. The induction follows `flatSpec`: an
element kept, an array on the path, an array entered and left. -/
theorem flattenLoop_run [Fintype ι] (lv : ℤ) (path : List ι) (hp : path.Nodup) (vs : List V)
    (s : FlattenState ι V) (hs : Frame g level s lv path vs) :
    ∃ k, ∀ n, flattenLoop g level (n + k) s = loopAfter g level n s vs.length (flatSpec g lv path hp vs) := by
  induction lv, path, hp, vs using flatSpec.induct g generalizing s with
  | case1 lv path hp => exact ⟨0, fun n => by simp [loopAfter]⟩
  | case2 path hp v vs ih =>
    -- no level left: the element is kept
    obtain ⟨k, hk⟩ := ih (s.keep v) hs.keep
    refine ⟨k + 1, fun n => ?_⟩
    rw [← Nat.add_assoc, flattenLoop_of_inl g level _
      (flattenStep_keep g level hs.getElem? (.inl (hs.deep_iff.mpr rfl))), hk, loopAfter_keep,
      flatSpec_keep g hp (.inl rfl)]
    rfl
  | case3 lv path hp v vs hlv hv ih =>
    -- no array: the element is kept
    obtain ⟨k, hk⟩ := ih (s.keep v) hs.keep
    refine ⟨k + 1, fun n => ?_⟩
    rw [← Nat.add_assoc, flattenLoop_of_inl g level _ (flattenStep_keep g level hs.getElem? (.inr hv)),
      hk, loopAfter_keep, flatSpec_keep g hp (.inr hv)]
    rfl
  | case4 lv path hp v vs hlv b hv hb =>
    -- an array on the path: both raise
    refine ⟨1, fun n => ?_⟩
    rw [flattenLoop_of_error g level _ (flattenStep_recursive g level hs.getElem?
      (mt hs.deep_iff.mp hlv) hv (hs.memo_eq ▸ hb)), flatSpec_recursive g hp hlv hv hb]
    rfl
  | case5 lv path hp v vs hlv b hv hb ih1 ih2 =>
    -- an array entered: its traversal, the pop, then the rest of this array
    have henter := flattenStep_enter g level hs.getElem? (mt hs.deep_iff.mp hlv) hv (hs.memo_eq ▸ hb)
    obtain ⟨k1, hk1⟩ := ih1 (s.enter b) (hs.enter hlv b)
    rw [flatSpec_enter g hp hlv hv hb]
    rcases hsub : flatSpec g (lv - 1) (b :: path) (hp.cons hb) (g.elems b) with e | ⟨r1, m1⟩
    · refine ⟨k1 + 1, fun n => ?_⟩
      rw [← Nat.add_assoc, flattenLoop_of_inl g level _ henter, hk1, hsub]
      rfl
    · obtain ⟨k2, hk2⟩ := ih2 _ (hs.resume r1)
      refine ⟨k2 + 1 + k1 + 1, fun n => ?_⟩
      rw [show n + (k2 + 1 + k1 + 1) = n + k2 + 1 + k1 + 1 by omega,
        flattenLoop_of_inl g level _ henter, hk1, hsub]
      rw [loopAfter, flattenLoop_of_inl g level _ (flattenStep_after_enter s b r1 m1), hk2,
        loopAfter_resume]
      rfl

end Dec

end Run

/-- **`flatten` ends with the recursion's answer**: with enough fuel, and with any more. -/
theorem flatten_eq_flatSpec [DecidableEq ι] [Fintype ι] (g : AryGraph ι V) (level : ℤ) (a : ι) :
    ∃ N, ∀ fuel, N ≤ fuel →
      flatten g level a fuel = some (flatSpec g level [a] (List.nodup_singleton a) (g.elems a)) := by
  have hs : Frame g level ⟨a, 0, [], [], [a], false⟩ level [a] (g.elems a) :=
    ⟨rfl, List.drop_zero, by simp, by simp only [List.length_nil, Int.natCast_zero]; omega⟩
  obtain ⟨k, hk⟩ := flattenLoop_run level [a] (List.nodup_singleton a) (g.elems a) _ hs
  refine ⟨k + 1, fun fuel hfuel => ?_⟩
  obtain ⟨n, rfl⟩ := Nat.exists_eq_add_of_le' hfuel
  rw [flatten, show n + (k + 1) = n + 1 + k by omega, hk]
  rcases flatSpec g level [a] (List.nodup_singleton a) (g.elems a) with e | ⟨r, m⟩
  · rfl
  · -- the root's end with an empty stack: the loop stops with the result
    rw [loopAfter, flattenLoop_of_inr g level _ (flattenStep_done g level (by simp) rfl)]
    simp

/-- `a = [1]; a << a; a.flatten` raises; an array is `.inr` of its place. -/
example : flatten (⟨fun _ => [.inl 1, .inr 0], fun v => v.getRight?⟩ : AryGraph (Fin 1) (ℕ ⊕ Fin 1))
    (-1) 0 5 = some (.error recursiveArrayError) := by rfl

/-- `[1, [2]].flatten(0)` keeps the inner array, `[1, [2]].flatten` does not. -/
example : let g : AryGraph (Fin 2) (ℕ ⊕ Fin 2) :=
      ⟨fun i => if i = 0 then [.inl 1, .inr 1] else [.inl 2], fun v => v.getRight?⟩
    flatten g 0 0 5 = some (.ok ([.inl 1, .inr 1], false)) ∧
      flatten g (-1) 0 5 = some (.ok ([.inl 1, .inl 2], true)) := ⟨rfl, rfl⟩

/-! ### What the recursion raises and reports -/

section Cycles

variable (g : AryGraph ι V)

/-- `Reaches g lv path lv' path'`: from the first array of `path` with `lv` levels left, the
traversal enters, array by array, the first array of `path'`, with `lv'` levels left. Each
array entered is given by an element of the one before, which had a level left. -/
inductive Reaches : ℤ → List ι → ℤ → List ι → Prop
  | refl (lv : ℤ) (path : List ι) : Reaches lv path lv path
  | enter {lv lv' : ℤ} {a : ι} {path path' : List ι} {v : V} {b : ι} (hlv : lv ≠ 0)
      (hv : v ∈ g.elems a) (hb : g.checkArrayType v = some b)
      (h : Reaches (lv - 1) (b :: a :: path) lv' path') : Reaches lv (a :: path) lv' path'

/-- An element of the first array of `path`, with a level left, is an array of `path`. -/
def CycleAt (lv : ℤ) : List ι → Prop
  | [] => False
  | a :: path => ∃ v ∈ g.elems a, lv ≠ 0 ∧ ∃ b, g.checkArrayType v = some b ∧ b ∈ a :: path

/-- The traversal from `path` reaches an array that occurs on its own ancestor path. -/
def CycleFrom (lv : ℤ) (path : List ι) : Prop :=
  ∃ lv' path', Reaches g lv path lv' path' ∧ CycleAt g lv' path'

/-- A cycle is met at the first array or after entering one of its elements' arrays. -/
theorem cycleFrom_cons_iff (lv : ℤ) (a : ι) (path : List ι) :
    CycleFrom g lv (a :: path) ↔ ∃ v ∈ g.elems a, lv ≠ 0 ∧ ∃ b, g.checkArrayType v = some b ∧
      (b ∈ a :: path ∨ CycleFrom g (lv - 1) (b :: a :: path)) := by
  constructor
  · rintro ⟨lv', path', hr, hc⟩
    cases hr with
    | refl =>
      obtain ⟨v, hv, hlv, b, hb, hmem⟩ := hc
      exact ⟨v, hv, hlv, b, hb, .inl hmem⟩
    | enter hlv hv hb h => exact ⟨_, hv, hlv, _, hb, .inr ⟨lv', path', h, hc⟩⟩
  · rintro ⟨v, hv, hlv, b, hb, hmem | ⟨lv', path', hr, hc⟩⟩
    · exact ⟨lv, a :: path, .refl _ _, v, hv, hlv, b, hb, hmem⟩
    · exact ⟨lv', path', .enter hlv hv hb hr, hc⟩

variable [DecidableEq ι] [Fintype ι]

theorem keepElem_eq_error (v : V) (res : Except String (List V × Bool)) (e : String) :
    keepElem v res = .error e ↔ res = .error e := by
  rcases res with e' | ⟨r, m⟩ <;> simp

/-- The recursion raises nothing but the cycle error. -/
theorem flatSpec_error_eq (lv : ℤ) (path : List ι) (hp : path.Nodup) (vs : List V) (e : String)
    (h : flatSpec g lv path hp vs = .error e) : e = recursiveArrayError := by
  induction lv, path, hp, vs using flatSpec.induct g with
  | case1 => simp at h
  | case2 path hp v vs ih => exact ih ((keepElem_eq_error v _ e).mp (flatSpec_keep g hp (.inl rfl) ▸ h))
  | case3 lv path hp v vs hlv hv ih =>
    exact ih ((keepElem_eq_error v _ e).mp (flatSpec_keep g hp (.inr hv) ▸ h))
  | case4 lv path hp v vs hlv b hv hb =>
    rw [flatSpec_recursive g hp hlv hv hb] at h
    exact (Except.error.inj h).symm
  | case5 lv path hp v vs hlv b hv hb ih1 ih2 =>
    rw [flatSpec_enter g hp hlv hv hb] at h
    rcases Except.bind_eq_error.mp h with h1 | ⟨p, -, h2⟩
    · exact ih1 h1
    · rcases Except.bind_eq_error.mp h2 with h3 | ⟨q, -, h4⟩
      · exact ih2 h3
      · cases h4

/-- The recursion raises exactly when an element with a level left is an array on the path or
leads, through the arrays it enters, to one on theirs. -/
theorem flatSpec_eq_error_iff (lv : ℤ) (path : List ι) (hp : path.Nodup) (vs : List V) :
    flatSpec g lv path hp vs = .error recursiveArrayError ↔
      ∃ v ∈ vs, lv ≠ 0 ∧ ∃ b, g.checkArrayType v = some b ∧ (b ∈ path ∨ CycleFrom g (lv - 1) (b :: path)) := by
  induction lv, path, hp, vs using flatSpec.induct g with
  | case1 => simp
  | case2 path hp v vs ih => simp [flatSpec_keep g hp (.inl rfl), keepElem_eq_error, ih]
  | case3 lv path hp v vs hlv hv ih => simp [flatSpec_keep g hp (.inr hv), keepElem_eq_error, ih, hv]
  | case4 lv path hp v vs hlv b hv hb =>
    rw [flatSpec_recursive g hp hlv hv hb]
    exact iff_of_true rfl ⟨v, List.mem_cons_self, hlv, b, hv, .inl hb⟩
  | case5 lv path hp v vs hlv b hv hb ih1 ih2 =>
    -- raised in the entered array, or later in this one
    have hsub : flatSpec g (lv - 1) (b :: path) (hp.cons hb) (g.elems b) = .error recursiveArrayError ↔
        CycleFrom g (lv - 1) (b :: path) := by
      rw [ih1, cycleFrom_cons_iff]
    have hraise : flatSpec g lv path hp (v :: vs) = .error recursiveArrayError ↔
        flatSpec g (lv - 1) (b :: path) (hp.cons hb) (g.elems b) = .error recursiveArrayError ∨
          flatSpec g lv path hp vs = .error recursiveArrayError := by
      rw [flatSpec_enter g hp hlv hv hb, Except.bind_eq_error]
      rcases h1 : flatSpec g (lv - 1) (b :: path) (hp.cons hb) (g.elems b) with e | ⟨r1, m1⟩
      · obtain rfl := flatSpec_error_eq g _ _ _ _ e h1
        simp
      · simp [Except.bind_eq_error]
    rw [hraise, hsub, ih2]
    simp [hlv, hv, hb]

/-- **The recursion raises exactly on a cycle**: an array reached within the level limit that
occurs on its own ancestor path. -/
theorem flatSpec_error_iff (level : ℤ) (a : ι) :
    flatSpec g level [a] (List.nodup_singleton a) (g.elems a) = .error recursiveArrayError ↔
      CycleFrom g level [a] := by
  rw [flatSpec_eq_error_iff, cycleFrom_cons_iff]

/-- The flag is set exactly when an element of the array, with a level left, was expanded. -/
theorem flatSpec_modified_iff (lv : ℤ) (path : List ι) (hp : path.Nodup) (vs : List V)
    (r : List V) (m : Bool) (h : flatSpec g lv path hp vs = .ok (r, m)) :
    m = true ↔ lv ≠ 0 ∧ ∃ v ∈ vs, (g.checkArrayType v).isSome := by
  induction lv, path, hp, vs using flatSpec.induct g generalizing r m with
  | case1 =>
    obtain ⟨-, rfl⟩ := Prod.mk.inj (Except.ok.inj (flatSpec_nil g _ ▸ h).symm)
    simp
  | case2 path hp v vs ih =>
    rw [flatSpec_keep g hp (.inl rfl)] at h
    obtain ⟨⟨r', m'⟩, h', hkeep⟩ := Except.map_eq_ok h
    obtain ⟨-, rfl⟩ := Prod.mk.inj hkeep
    simpa using ih r' m' h'
  | case3 lv path hp v vs hlv hv ih =>
    rw [flatSpec_keep g hp (.inr hv)] at h
    obtain ⟨⟨r', m'⟩, h', hkeep⟩ := Except.map_eq_ok h
    obtain ⟨-, rfl⟩ := Prod.mk.inj hkeep
    simpa [hv] using ih r' m' h'
  | case4 lv path hp v vs hlv b hv hb =>
    rw [flatSpec_recursive g hp hlv hv hb] at h
    cases h
  | case5 lv path hp v vs hlv b hv hb ih1 ih2 =>
    rw [flatSpec_enter g hp hlv hv hb] at h
    obtain ⟨p, -, h'⟩ := Except.bind_eq_ok h
    obtain ⟨q, -, hq⟩ := Except.bind_eq_ok h'
    obtain ⟨-, rfl⟩ := Prod.mk.inj (Except.ok.inj hq).symm
    exact iff_of_true rfl ⟨hlv, v, List.mem_cons_self, by simp [hv]⟩

/-- With no level left the recursion keeps every element. -/
theorem flatSpec_zero (path : List ι) (hp : path.Nodup) (vs : List V) :
    flatSpec g 0 path hp vs = .ok (vs, false) := by
  induction vs with
  | nil => exact flatSpec_nil g hp
  | cons v vs ih => rw [flatSpec_keep g hp (.inl rfl), ih, keepElem_ok]

end Cycles

/-! ### The callers -/

section Callers

variable [DecidableEq ι] [Fintype ι] (g : AryGraph ι V)

/-- `Array#flatten` answers the recursion's flattening; its shortcut for level 0 agrees. -/
theorem rbAryFlatten_eq (lv : Option ℤ) (a : ι) :
    ∃ N, ∀ fuel, N ≤ fuel → rbAryFlatten g lv a fuel =
      some ((flatSpec g (lv.getD (-1)) [a] (List.nodup_singleton a) (g.elems a)).map Prod.fst) := by
  by_cases h0 : lv.getD (-1) = 0
  · refine ⟨0, fun fuel _ => ?_⟩
    rw [rbAryFlatten, if_pos h0, h0, flatSpec_zero]
    rfl
  · obtain ⟨N, hN⟩ := flatten_eq_flatSpec g (lv.getD (-1)) a
    exact ⟨N, fun fuel hfuel => by rw [rbAryFlatten, if_neg h0, hN fuel hfuel, Option.map_some]⟩

/-- `Array#flatten!` answers `nil` exactly when the recursion expanded nothing; its shortcut
for level 0 agrees. -/
theorem rbAryFlattenBang_eq (lv : Option ℤ) (a : ι) :
    ∃ N, ∀ fuel, N ≤ fuel → rbAryFlattenBang g lv a fuel =
      some ((flatSpec g (lv.getD (-1)) [a] (List.nodup_singleton a) (g.elems a)).map
        fun (r, m) => if m then some r else none) := by
  by_cases h0 : lv.getD (-1) = 0
  · refine ⟨0, fun fuel _ => ?_⟩
    rw [rbAryFlattenBang, if_pos h0, h0, flatSpec_zero]
    rfl
  · obtain ⟨N, hN⟩ := flatten_eq_flatSpec g (lv.getD (-1)) a
    exact ⟨N, fun fuel hfuel => by rw [rbAryFlattenBang, if_neg h0, hN fuel hfuel, Option.map_some]⟩

end Callers

/-- `flatten` against its recursive definition: it ends with `flatSpec`'s answer, which raises
`"tried to flatten recursive array"` exactly when an array reached within the level occurs on
its own ancestor path, and whose flag is set exactly when an element of the array was
expanded. -/
theorem flatten_matches_recursive_definition [DecidableEq ι] [Fintype ι] (g : AryGraph ι V)
    (level : ℤ) (a : ι) :
    (∃ N, ∀ fuel, N ≤ fuel →
      flatten g level a fuel = some (flatSpec g level [a] (List.nodup_singleton a) (g.elems a))) ∧
    (∀ e, flatSpec g level [a] (List.nodup_singleton a) (g.elems a) = .error e ↔
      e = recursiveArrayError ∧ CycleFrom g level [a]) ∧
    (∀ r m, flatSpec g level [a] (List.nodup_singleton a) (g.elems a) = .ok (r, m) →
      (m = true ↔ level ≠ 0 ∧ ∃ v ∈ g.elems a, (g.checkArrayType v).isSome)) := by
  refine ⟨flatten_eq_flatSpec g level a, fun e => ⟨fun h => ?_, ?_⟩,
    fun r m h => flatSpec_modified_iff g level [a] _ (g.elems a) r m h⟩
  · obtain rfl := flatSpec_error_eq g _ _ _ _ e h
    exact ⟨rfl, (flatSpec_error_iff g level a).mp h⟩
  · rintro ⟨rfl, hc⟩
    exact (flatSpec_error_iff g level a).mpr hc

end CRuby.Ary
