import CRuby.St.Preserve

/-!
# `st.c`: the invariant holds of every table a program can build

`Reachable ty tab`: `tab` is built by `st_init_table_with_size` and any sequence of the
operations (`StOp`), each called as its callers promise (`StOp.Allowed`) and returning; the
search loops are run with whatever fuel they need, so a table is reachable exactly when the
code can build it. `reachable_inv` is the representation invariant over all such runs: one
step lemma (`Inv.run`, a case per operation, each from `CRuby.St.Preserve`) and an induction on
the run.
-/

namespace CRuby.St

/-- The operations of `st.c` on a table, with what the code receives from its caller. -/
inductive StOp : Type 1 where
  /-- `st_insert(tab, key, value)` -/
  | insert (key value : StData)
  /-- `st_insert2(tab, key, value, func)` -/
  | insert2 (key value : StData) (func : StData → StData)
  /-- `st_add_direct(tab, key, value)` -/
  | addDirect (key value : StData)
  /-- `st_delete(tab, &key, &value)` -/
  | delete (key : StData)
  /-- `st_shift(tab, &key, &value)` -/
  | shift
  /-- `st_update(tab, key, func, arg)` -/
  | update (key : StData) (func : StData → StData → Bool → StRetval × StData × StData)
  /-- `st_foreach(tab, func, arg)`, or `st_foreach_check` when `checkP` -/
  | foreach {σ : Type} (func : σ → StData → StData → StRetval × σ) (arg : σ) (checkP : Bool)
  /-- `st_clear(tab)` -/
  | clear
  /-- `st_copy(tab)`: the copy carries on -/
  | copy

/-- The table an operation leaves, its search loops run with `fuel`. -/
def StOp.run (fuel : ℕ) (ty : StHashType) (tab : StTable) : StOp → Option StTable
  | .insert key value => (stInsert fuel ty tab key value).map Prod.fst
  | .insert2 key value func => (stInsert2 fuel ty tab key value func).map Prod.fst
  | .addDirect key value => stAddDirect fuel ty tab key value
  | .delete key => (stDelete fuel ty tab key).map Prod.fst
  | .shift => (stShift fuel ty tab).map Prod.fst
  | .update key func => (stUpdate fuel ty tab key func).map Prod.fst
  | .foreach func arg checkP => (stGeneralForeach fuel ty tab func arg checkP).map Prod.fst
  | .clear => some (stClear tab)
  | .copy => some (stCopy tab)

/-- What the callers of an operation promise: `st_insert2`'s `func` and `st_update`'s callback
answer keys `EQUAL` to the ones they get, and `st_add_direct` is called on a key the table does
not have. -/
def StOp.Allowed (ty : StHashType) (tab : StTable) : StOp → Prop
  | .insert2 _ _ func => ∀ k, stEqual ty k (func k) = true
  | .addDirect key _ => ∀ i e, tab.LiveAt i e → stEqual ty key e.key = false
  | .update _ func => ∀ k v ex, stEqual ty k (func k v ex).2.1 = true
  | _ => True

/-- The tables a program can build: a new table, then operations that return. -/
inductive Reachable (ty : StHashType) : StTable → Prop
  | init {size : ℕ} {tab : StTable} : stInitTableWithSize size = some tab → Reachable ty tab
  | step {tab tab' : StTable} {op : StOp} {fuel : ℕ} :
      Reachable ty tab → op.Allowed ty tab → op.run fuel ty tab = some tab' → Reachable ty tab'

variable {ty : StHashType} {tab tab' : StTable}

/-- **One operation** keeps the invariant. -/
theorem Inv.run (hinv : Inv ty tab) (hty : LawfulHashType ty) {op : StOp} {fuel : ℕ}
    (hallowed : op.Allowed ty tab) (h : op.run fuel ty tab = some tab') : Inv ty tab' := by
  cases op with
  | insert key value =>
    obtain ⟨⟨t, r⟩, hop, rfl⟩ := Option.map_eq_some_iff.mp h
    exact hinv.insertWith hty (stEqual_self ty key) hop
  | insert2 key value func =>
    obtain ⟨⟨t, r⟩, hop, rfl⟩ := Option.map_eq_some_iff.mp h
    exact hinv.insertWith hty (hallowed key) hop
  | addDirect key value => exact hinv.addDirect hty hallowed h
  | delete key =>
    obtain ⟨⟨t, r⟩, hop, rfl⟩ := Option.map_eq_some_iff.mp h
    exact hinv.generalDelete hop
  | shift =>
    obtain ⟨⟨t, r⟩, hop, rfl⟩ := Option.map_eq_some_iff.mp h
    exact hinv.shift hop
  | update key func =>
    obtain ⟨⟨t, r⟩, hop, rfl⟩ := Option.map_eq_some_iff.mp h
    exact hinv.update hty hallowed hop
  | foreach func arg checkP =>
    obtain ⟨⟨t, r⟩, hop, rfl⟩ := Option.map_eq_some_iff.mp h
    exact hinv.generalForeach hop
  | clear =>
    obtain rfl := (Option.some.inj h).symm
    exact hinv.clear
  | copy =>
    obtain rfl := (Option.some.inj h).symm
    exact hinv

/-- Every table a program builds with the operations of `st.c` satisfies the representation
invariant of `st_check`, when the type's `EQUAL` is an equivalence that hashes alike. -/
theorem reachable_inv (hty : LawfulHashType ty) (h : Reachable ty tab) : Inv ty tab := by
  induction h with
  | init hinit => exact Inv.init hinit
  | step _ hallowed hrun ih => exact ih.run hty hallowed hrun

/-- `st_hashtype_num`'s `EQUAL` is equality. -/
theorem stEqual_num (x y : StData) : stEqual stHashtypeNum x y = true ↔ x = y := by
  unfold stEqual stHashtypeNum stNumcmp
  by_cases hxy : x = y <;> simp [hxy]

/-- `st_hashtype_num` is a lawful type. -/
theorem lawfulHashType_num : LawfulHashType stHashtypeNum where
  symm x y h := by
    rw [stEqual_num] at h ⊢
    exact h.symm
  trans x y z hxy hyz := by
    rw [stEqual_num] at hxy hyz ⊢
    exact hxy.trans hyz
  doHash_eq x y h := by
    rw [(stEqual_num x y).mp h]

/-- A numeric table after one `st_insert`. -/
theorem reachable_inv_insert :
    Inv stHashtypeNum ⟨2, 3, 0, 1, 0, 1, none, [⟨stNumhash 5, 5, 7⟩], 0⟩ :=
  reachable_inv lawfulHashType_num
    (Reachable.step (Reachable.init (show stInitTableWithSize 0 = some _ from rfl))
      (show (StOp.insert 5 7).Allowed _ _ from trivial)
      (show (StOp.insert 5 7).run 1 _ _ = some _ from rfl))

/-- The table of `st_insert(t, 1, 10); st_insert(t, 2, 20)` on a new numeric table. -/
def heldOneTwo : StTable :=
  ⟨2, 3, 0, 2, 0, 2, none, [⟨stNumhash 1, 1, 10⟩, ⟨stNumhash 2, 2, 20⟩], 0⟩

/-- Without its callers' promise the invariant fails. An `st_update` of key `1` whose callback
answers the key `2`, on a table that holds `2`, makes entry `0`'s key `2` in place: two live
entries then have the key `2`, and entry `0` is in the bin of `1`'s hash. -/
theorem update_to_held_key_breaks_inv :
    Reachable stHashtypeNum heldOneTwo ∧
      (StOp.update 1 fun _ v _ => (.stContinue, 2, v)).run 1 stHashtypeNum heldOneTwo =
        some { heldOneTwo with entries := [⟨stNumhash 1, 2, 10⟩, ⟨stNumhash 2, 2, 20⟩] } ∧
      ¬ Inv stHashtypeNum { heldOneTwo with entries := [⟨stNumhash 1, 2, 10⟩, ⟨stNumhash 2, 2, 20⟩] } := by
  refine ⟨?_, rfl, fun hinv => ?_⟩
  · have h1 : Reachable stHashtypeNum ⟨2, 3, 0, 1, 0, 1, none, [⟨stNumhash 1, 1, 10⟩], 0⟩ :=
      Reachable.step (Reachable.init (show stInitTableWithSize 0 = some _ from rfl))
        (show (StOp.insert 1 10).Allowed _ _ from trivial)
        (show (StOp.insert 1 10).run 1 _ _ = some _ from rfl)
    exact Reachable.step h1 (show (StOp.insert 2 20).Allowed _ _ from trivial)
      (show (StOp.insert 2 20).run 1 _ _ = some _ from rfl)
  · -- slots `0` and `1` are both live, with the same key
    have hapart := hinv.keys_apart 0 1 _ _ ⟨le_rfl, by decide, rfl, rfl⟩ ⟨by decide, by decide, rfl, rfl⟩
      (by decide)
    exact absurd hapart.1 (by simp)

end CRuby.St
