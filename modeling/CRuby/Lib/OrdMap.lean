import Mathlib.Data.List.Basic

/-!
# Insertion-ordered maps

What a hash table that keeps its entries in insertion order holds, as an association list: one
pair of key and value per entry, oldest first. Keys are compared by a test `eq k k'`, the
table's own and not necessarily `=`; `Distinct eq m` says that the test relates no two keys of
`m`.

* `find m k` is the first pair whose key the test matches with `k`, and `lookup` its value;
* `insert m k k' v` gives the pair that matches `k` the value `v` in place, or appends `(k', v)`
  when none does (a table may store a key other than the one it was handed, one that matches);
* `erase m k` drops the pairs that match `k`.

The lemmas are the ones a refinement proof uses: what `find` answers when a key matches exactly
one pair or none, and what `erase` does to the oldest pair of a list whose keys are distinct.
-/

namespace OrdMap

variable {K V : Type} (eq : K → K → Bool)

/-- The first pair whose key matches `k`. -/
def find (m : List (K × V)) (k : K) : Option (K × V) :=
  m.find? fun p => eq k p.1

/-- The value stored for `k`. -/
def lookup (m : List (K × V)) (k : K) : Option V :=
  (find eq m k).map Prod.snd

/-- Store `v` for `k`: in place when a pair matches `k`, else as a new last pair `(k', v)`. -/
def insert (m : List (K × V)) (k k' : K) (v : V) : List (K × V) :=
  if (find eq m k).isSome then m.map fun p => if eq k p.1 then (p.1, v) else p
  else m ++ [(k', v)]

/-- Drop the pairs that match `k`. -/
def erase (m : List (K × V)) (k : K) : List (K × V) :=
  m.filter fun p => !eq k p.1

/-- No two pairs have keys that match, either way round. -/
def Distinct (m : List (K × V)) : Prop :=
  m.Pairwise fun p q => eq p.1 q.1 = false ∧ eq q.1 p.1 = false

variable {eq} {m : List (K × V)} {k : K}

/-- A key that matches exactly one pair finds it. -/
theorem find_eq_some_of_unique {p : K × V} (hp : p ∈ m) (hk : eq k p.1 = true)
    (hu : ∀ q ∈ m, eq k q.1 = true → q = p) : find eq m k = some p := by
  induction m with
  | nil => cases hp
  | cons q m ih =>
    unfold find
    rw [List.find?_cons]
    by_cases hq : eq k q.1 = true
    · rw [hq, hu q List.mem_cons_self hq]
    · rw [Bool.not_eq_true] at hq
      rw [hq]
      -- `p` is not the head, whose key does not match
      have hpm : p ∈ m := by
        rcases List.mem_cons.mp hp with rfl | h
        · rw [hk] at hq
          cases hq
        · exact h
      exact ih hpm fun q' hq' => hu q' (List.mem_cons_of_mem q hq')

/-- A key that matches no pair finds nothing. -/
theorem find_eq_none (h : ∀ q ∈ m, eq k q.1 = false) : find eq m k = none := by
  unfold find
  rw [List.find?_eq_none]
  intro q hq
  rw [h q hq]
  decide

theorem insert_of_find_some {p : K × V} (h : find eq m k = some p) (k' : K) (v : V) :
    insert eq m k k' v = m.map fun p => if eq k p.1 then (p.1, v) else p := by
  rw [insert, h, Option.isSome_some, if_pos rfl]

theorem insert_of_find_none (h : find eq m k = none) (k' : K) (v : V) :
    insert eq m k k' v = m ++ [(k', v)] := by
  rw [insert, h, Option.isSome_none, if_neg Bool.false_ne_true]

/-- Erasing a key that matches no pair changes nothing. -/
theorem erase_of_find_none (h : find eq m k = none) : erase eq m k = m := by
  unfold find at h
  unfold erase
  rw [List.filter_eq_self]
  intro q hq
  have hno := List.find?_eq_none.mp h q hq
  rw [Bool.not_eq_true] at hno
  rw [hno]
  rfl

/-- The oldest pair's key, in a list whose keys are distinct, finds that pair. -/
theorem find_cons_self {p : K × V} (hrefl : eq p.1 p.1 = true) : find eq (p :: m) p.1 = some p := by
  unfold find
  rw [List.find?_cons, hrefl]

/-- Erasing the oldest pair's key, in a list whose keys are distinct, drops that pair only. -/
theorem erase_cons_self {p : K × V} (hrefl : eq p.1 p.1 = true) (hd : Distinct eq (p :: m)) :
    erase eq (p :: m) p.1 = m := by
  unfold erase
  rw [List.filter_cons, hrefl, Bool.not_true, if_neg Bool.false_ne_true, List.filter_eq_self]
  intro q hq
  rw [((List.pairwise_cons.mp hd).1 q hq).1]
  rfl

end OrdMap
