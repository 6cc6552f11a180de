import CRuby.St.View
import CRuby.St.Reachable

/-!
# `st.c`: a table is an insertion-ordered map

Each operation of `st.c`, on a table that satisfies `Inv`, does to what the table holds
(`view`) what the operation of an insertion-ordered map (`OrdMap`, keys compared by `EQUAL`)
does, and answers what the map answers:

* `st_lookup` and `st_get_key` answer the record and the stored key of the pair whose key
  matches (`Inv.lookup_view`);
* `st_insert` and `st_insert2` replace the record of that pair in place, or append a pair, and
  answer whether the key was there (`Inv.insertWith_view`); `st_add_direct` appends;
* `st_delete` erases the key and answers the pair it held (`Inv.delete_view`);
* `st_shift` removes and answers the oldest pair (`Inv.shift_view`);
* `st_update` and `st_foreach` act on the pairs as their callbacks answer (`updateView`,
  `foreachView`; `Inv.update_view`, `Inv.foreach_view`).

`calls_refine` puts them together over whole runs: a table made by
`st_init_table_with_size`, after any calls, each made as its callers promise, has answered what
the association list answers to the same calls and holds what the list holds.

Each result is about the answer an operation gives when it gives one: the searches of a table
whose bins have no empty one can run forever (`CRuby.St.Divergence`).
-/

namespace CRuby.St

variable {ty : StHashType} {tab tab' : StTable} {fuel : ℕ}

/-! ## Lookup -/

section Lookup

variable {key : StData}

/-- The entry a lookup's search answers is the pair `find` answers. -/
theorem Inv.lookupIndex_find (hinv : Inv ty tab) (hty : LawfulHashType ty) {x : Option ℕ}
    (h : lookupIndex fuel ty tab key = some x) :
    (x.bind tab.entry?).map (fun e => (e.key, e.record)) =
      OrdMap.find (stEqual ty) (view tab) key := by
  -- what the search answers: a live entry that matches, or that none does
  have hspec : (∀ i, x = some i → ∃ e, tab.LiveAt i e ∧ ptrEqual ty e (doHash ty key) key = true) ∧
      (x = none → ∀ i e, tab.LiveAt i e → ptrEqual ty e (doHash ty key) key = false) := by
    unfold lookupIndex at h
    rcases hb : tab.bins with - | bins
    · rw [hb] at h
      obtain rfl := Option.some.inj h
      exact ⟨fun i hi => findEntry_eq_some (doHash_ne_reserved ty key) hi,
        fun hn i e he => findEntry_eq_none hn he⟩
    · rw [hb] at h
      simp only [findTableEntryInd, Option.map_map, Option.map_eq_some_iff] at h
      obtain ⟨r, hloop, rfl⟩ := h
      have hbinv := hinv.bins_inv bins hb
      rcases r with - | ⟨ind, v⟩
      · refine ⟨fun i hi => ?_, fun _ i e he => findBinLoop_eq_some_none hbinv hloop he⟩
        simp at hi
      · obtain ⟨-, -, -, e, he, hm⟩ := findBinLoop_eq_some_some hbinv hloop
        refine ⟨fun i hi => ?_, fun hn => ?_⟩
        · simp only [Option.map_some, Function.comp_apply, Option.some.injEq] at hi
          exact hi ▸ ⟨e, he, hm⟩
        · simp at hn
  rcases x with - | i
  · rw [hinv.find_view_eq_none hty (hspec.2 rfl)]
    rfl
  · obtain ⟨e, he, hm⟩ := hspec.1 i rfl
    rw [hinv.find_view hty he (stEqual_of_ptrEqual hm)]
    simp [StTable.entry?, he.2.2.1]

/-- **`st_lookup` and `st_get_key` answer what the map holds**: the record and the stored key
of the pair whose key is `EQUAL` to `key`, or nothing when there is none. -/
theorem Inv.lookup_view (hinv : Inv ty tab) (hty : LawfulHashType ty) (key : StData) :
    (∀ r, stLookup fuel ty tab key = some r → r = OrdMap.lookup (stEqual ty) (view tab) key) ∧
      ∀ r, stGetKey fuel ty tab key = some r →
        r = (OrdMap.find (stEqual ty) (view tab) key).map Prod.fst := by
  constructor
  · intro r h
    obtain ⟨x, hx, rfl⟩ := Option.map_eq_some_iff.mp h
    rw [OrdMap.lookup, ← hinv.lookupIndex_find hty hx, Option.map_map]
    cases x <;> rfl
  · intro r h
    obtain ⟨x, hx, rfl⟩ := Option.map_eq_some_iff.mp h
    rw [← hinv.lookupIndex_find hty hx, Option.map_map]
    cases x <;> rfl

end Lookup

/-! ## Insertion -/

section Insert

variable {key value : StData}

/-- `rebuild_table_if_necessary` keeps what the table holds. -/
theorem Inv.view_rebuildIfNecessary (hinv : Inv ty tab)
    (h : rebuildTableIfNecessary fuel tab = some tab') : view tab' = view tab := by
  rw [view, view, (hinv.rebuildIfNecessary h).2.1]

/-- A new entry stores `do_hash` of a key, so it is not a deleted one. -/
theorem deletedEntryP_doHash (ty : StHashType) (key k v : StData) : deletedEntryP ⟨doHash ty key, k, v⟩ = false :=
  beq_eq_false_iff_ne.mpr (doHash_ne_reserved ty key)

/-- A new entry appended to a table with room holds its pair last. -/
theorem view_appendEntry (hlen : tab.entries.length = tab.entriesBound)
    (hsb : tab.entriesStart ≤ tab.entriesBound) {e₀ : StTableEntry}
    (hdel : deletedEntryP e₀ = false) (h : appendEntry tab e₀ = some tab') :
    view tab' = view tab ++ [(e₀.key, e₀.record)] := by
  rw [appendEntry_eq_some h]
  exact view_append hlen hsb hdel

/-- Replacing the record of the live entry whose key matches `key` gives the pair that matches
`key` the new record. -/
theorem Inv.view_modifyRecord (hinv : Inv ty tab) (hty : LawfulHashType ty) {n : ℕ}
    {e₀ : StTableEntry} (hn : tab.LiveAt n e₀) (hk : stEqual ty key e₀.key = true) :
    view (tab.modifyEntry n fun e => { e with record := value }) =
      (view tab).map fun p => if stEqual ty key p.1 then (p.1, value) else p := by
  rw [hinv.view_modifyEntry hty hn hk (f := fun e => { e with record := value }) fun _ => rfl]
  refine List.map_congr_left fun p hp => ?_
  split
  · rename_i hpk
    rw [hinv.eq_of_mem_view hty hn hk hp hpk]
  · rfl

/-- **`st_insert` and `st_insert2`**: the key's pair gets the new record in place, or the pair
of the stored key and the record comes last; the answer is whether the key was there. -/
theorem Inv.insertWith_view (hinv : Inv ty tab) (hty : LawfulHashType ty)
    {newKey : StData → StData} {r : Bool}
    (h : stInsertWith fuel ty tab key value newKey = some (tab', r)) :
    view tab' = OrdMap.insert (stEqual ty) (view tab) key (newKey key) value ∧
      r = (OrdMap.find (stEqual ty) (view tab) key).isSome := by
  simp only [stInsertWith, bind, Option.bind_eq_some_iff] at h
  obtain ⟨tab1, hreb, h⟩ := h
  have hinv1 := (hinv.rebuildIfNecessary hreb).1
  rw [← hinv.view_rebuildIfNecessary hreb]
  have hdel := deletedEntryP_doHash ty key (newKey key) value
  -- the two ends of an insertion: a new pair last, or the found pair's record replaced
  have happend : ∀ t t', appendEntry t ⟨doHash ty key, newKey key, value⟩ = some t' →
      t.entriesStart = tab1.entriesStart → t.entriesBound = tab1.entriesBound →
      t.entries = tab1.entries →
      (∀ i e, tab1.LiveAt i e → ptrEqual ty e (doHash ty key) key = false) →
      view t' = OrdMap.insert (stEqual ty) (view tab1) key (newKey key) value ∧
        false = (OrdMap.find (stEqual ty) (view tab1) key).isSome := by
    intro t t' happ hs hb he habs
    have hfind := hinv1.find_view_eq_none hty habs
    rw [view_appendEntry (he ▸ hb ▸ hinv1.length_entries) (hs ▸ hb ▸ hinv1.start_le_bound) hdel
      happ, view_congr hs hb he, hfind, OrdMap.insert_of_find_none hfind]
    exact ⟨rfl, rfl⟩
  have hfound : ∀ {n : ℕ} {e : StTableEntry}, tab1.LiveAt n e →
      ptrEqual ty e (doHash ty key) key = true →
      view (tab1.modifyEntry n fun e => { e with record := value }) =
          OrdMap.insert (stEqual ty) (view tab1) key (newKey key) value ∧
        true = (OrdMap.find (stEqual ty) (view tab1) key).isSome := by
    intro n e he hm
    have hfind := hinv1.find_view hty he (stEqual_of_ptrEqual hm)
    rw [hfind, OrdMap.insert_of_find_some hfind]
    exact ⟨hinv1.view_modifyRecord hty he (stEqual_of_ptrEqual hm), rfl⟩
  rcases hb : tab1.bins with - | bins
  · -- linear search
    rw [hb] at h
    dsimp only at h
    rcases hf : findEntry ty tab1 (doHash ty key) key with - | bin
    · rw [hf] at h
      obtain ⟨tab2, happ, heq⟩ := Option.bind_eq_some_iff.mp h
      obtain ⟨rfl, rfl⟩ := Prod.mk.inj (Option.some.inj heq)
      exact happend _ _ happ rfl rfl rfl fun i e he => findEntry_eq_none hf he
    · rw [hf] at h
      obtain ⟨rfl, rfl⟩ := Prod.mk.inj (Option.some.inj h)
      obtain ⟨e, he, hm⟩ := findEntry_eq_some (doHash_ne_reserved ty key) hf
      exact hfound he hm
  · -- open addressing
    rw [hb] at h
    dsimp only at h
    obtain ⟨⟨tab2, entryIndex, c⟩, hres, h⟩ := Option.bind_eq_some_iff.mp h
    dsimp only at h
    have hbinv := hinv1.bins_inv bins hb
    cases entryIndex with
    | none =>
      obtain ⟨⟨bins', rfl, -⟩, -, -, -, habs⟩ := findTableBinPtrAndReserve_eq_some_none hbinv hb hres
      dsimp only at h
      obtain ⟨tab3, happ, heq⟩ := Option.bind_eq_some_iff.mp h
      obtain ⟨rfl, rfl⟩ := Prod.mk.inj (Option.some.inj heq)
      rw [view_setBinAt]
      exact happend _ _ happ rfl rfl rfl habs
    | some v =>
      dsimp only at h
      obtain ⟨rfl, rfl⟩ := Prod.mk.inj (Option.some.inj h)
      obtain ⟨rfl, -, -, -, e, he, hm⟩ := findTableBinPtrAndReserve_eq_some_some hbinv hres
      exact hfound he hm

/-- **`st_add_direct`** appends the pair, without a search. -/
theorem Inv.addDirectWithHash_view (hinv : Inv ty tab) {hash : ℕ} (hres : hash ≠ reservedHashVal)
    (h : stAddDirectWithHash fuel tab key value hash = some tab') :
    view tab' = view tab ++ [(key, value)] := by
  simp only [stAddDirectWithHash, bind, Option.bind_eq_some_iff] at h
  obtain ⟨tab1, hreb, tab2, happ, h⟩ := h
  have hinv1 := (hinv.rebuildIfNecessary hreb).1
  have hview : view { tab2 with numEntries := tab2.numEntries + 1 } = view tab ++ [(key, value)] := by
    have hcount : view { tab2 with numEntries := tab2.numEntries + 1 } = view tab2 :=
      view_congr rfl rfl rfl
    rw [hcount, view_appendEntry hinv1.length_entries hinv1.start_le_bound
      (beq_eq_false_iff_ne.mpr hres) happ, hinv.view_rebuildIfNecessary hreb]
  split at h
  · obtain rfl := (Option.some.inj h).symm
    exact hview
  · obtain ⟨b, -, heq⟩ := Option.bind_eq_some_iff.mp h
    obtain rfl := (Option.some.inj heq).symm
    rw [view_setBinAt]
    exact hview

end Insert

/-! ## Deletion -/

section Delete

variable {key : StData}

/-- **`st_delete`** erases the key and answers the pair it held. -/
theorem Inv.delete_view (hinv : Inv ty tab) (hty : LawfulHashType ty)
    {r : Option (StData × StData)} (h : stGeneralDelete fuel ty tab key = some (tab', r)) :
    view tab' = OrdMap.erase (stEqual ty) (view tab) key ∧
      r = OrdMap.find (stEqual ty) (view tab) key := by
  simp only [stGeneralDelete, bind, Option.bind_eq_some_iff] at h
  obtain ⟨found, hfound, h⟩ := h
  cases found with
  | none =>
    obtain ⟨rfl, rfl⟩ := Prod.mk.inj (Option.some.inj h)
    have hfind := hinv.find_view_eq_none hty fun i e he => hinv.findEntryAndBin_none hfound he
    rw [hfind, OrdMap.erase_of_find_none hfind]
    exact ⟨rfl, rfl⟩
  | some p =>
    obtain ⟨bin, binInd⟩ := p
    dsimp only at h
    obtain ⟨entry, hentry, heq⟩ := Option.bind_eq_some_iff.mp h
    obtain ⟨rfl, rfl⟩ := Prod.mk.inj (Option.some.inj heq)
    obtain ⟨e, he, hm, -, -⟩ := hinv.findEntryAndBin_some (doHash_ne_reserved ty key) hfound
    obtain rfl : e = entry := Option.some.inj (he.2.2.1.symm.trans hentry)
    exact ⟨hinv.view_deleteEntryAt hty he (stEqual_of_ptrEqual hm) binInd,
      (hinv.find_view hty he (stEqual_of_ptrEqual hm)).symm⟩

/-- `st_shift`'s scan passes only slots whose entry is deleted. -/
theorem firstLive_skipped : ∀ (i count : ℕ) {j : ℕ} {e : StTableEntry},
    firstLive tab i count = some (j, e) →
      ∀ k, i ≤ k → k < j → ∀ e', tab.entries[k]? = some e' → deletedEntryP e' = true
  | _, 0, _, _, h => by cases h
  | i, count + 1, j, e, h => by
    intro k hik hkj e' hk
    unfold firstLive at h
    split at h
    · rename_i e'' he''
      split at h
      · rename_i hdel
        rcases Nat.lt_or_eq_of_le hik with hlt | rfl
        · exact firstLive_skipped (i + 1) count h k hlt hkj e' hk
        · rw [StTable.entry?, hk] at he''
          obtain rfl := Option.some.inj he''
          exact hdel
      · -- the scan stopped at `i` itself
        cases h
        omega
    · rename_i hnone
      rcases Nat.lt_or_eq_of_le hik with hlt | rfl
      · exact firstLive_skipped (i + 1) count h k hlt hkj e' hk
      · rw [StTable.entry?, hk] at hnone
        cases hnone

/-- **`st_shift`** removes and answers the oldest pair. -/
theorem Inv.shift_view (hinv : Inv ty tab) (hty : LawfulHashType ty)
    {r : Option (StData × StData)} (h : stShift fuel ty tab = some (tab', r)) :
    view tab' = (view tab).tail ∧ r = (view tab).head? := by
  unfold stShift at h
  split at h
  · -- no live entry: the range is reset
    rename_i hfirst
    obtain ⟨rfl, rfl⟩ := Prod.mk.inj (Option.some.inj h)
    have hnil : view tab = [] := view_eq_nil fun i e he => by
      have hdel := firstLive_eq_none _ _ hfirst i e he.1 (by have := he.2.1; omega) he.2.2.1
      rw [he.2.2.2] at hdel
      cases hdel
    rw [hnil, view_eq_nil fun i e he => Nat.not_lt_zero i he.2.1]
    exact ⟨rfl, rfl⟩
  · rename_i i curr hfirst
    obtain ⟨h1, h2, h3, h4⟩ := firstLive_eq_some _ _ hfirst
    have hlive : tab.LiveAt i curr := ⟨h1, by omega, h3, h4⟩
    -- the oldest pair is slot `i`'s: the scan passed only deleted slots before it
    have hbelow : view { tab with entriesBound := i } = [] := view_eq_nil fun k e he => by
      obtain ⟨⟨hk1, -, hk3, hk4⟩, hk2⟩ := (liveAt_withBound (by omega)).mp he
      rw [firstLive_skipped _ _ hfirst k hk1 hk2 e hk3] at hk4
      cases hk4
    have hhead : view tab = (curr.key, curr.record) :: view { tab with entriesStart := i + 1 } := by
      rw [view_split h1 (by omega), view_start (by omega) h3, h4, if_neg Bool.false_ne_true,
        hbelow, List.nil_append, List.singleton_append]
    have hd := hinv.view_distinct
    rw [hhead] at hd
    -- both branches delete slot `i`
    have hdelete : ∀ binInd, view (deleteEntryAt tab binInd i) = (view tab).tail := by
      intro binInd
      rw [hinv.view_deleteEntryAt hty hlive (stEqual_self ty curr.key) binInd, hhead,
        OrdMap.erase_cons_self (p := (curr.key, curr.record)) (stEqual_self ty _) hd]
      rfl
    split at h
    · obtain ⟨rfl, rfl⟩ := Prod.mk.inj (Option.some.inj h)
      rw [hdelete, hhead]
      exact ⟨rfl, rfl⟩
    · simp only [bind, Option.bind_eq_some_iff] at h
      obtain ⟨binInd?, -, binInd, rfl, heq⟩ := h
      obtain ⟨rfl, rfl⟩ := Prod.mk.inj (Option.some.inj heq)
      rw [hdelete, hhead]
      exact ⟨rfl, rfl⟩

end Delete

/-! ## Update -/

/-- What `st_update` does to the map and answers. On the key's pair, the callback's
`ST_CONTINUE` replaces its key and record and `ST_DELETE` erases it; on an absent key,
`ST_CONTINUE` appends the callback's pair. The answer is whether the key was there. -/
def updateView (ty : StHashType) (m : List (StData × StData)) (key : StData)
    (func : StData → StData → Bool → StRetval × StData × StData) :
    List (StData × StData) × Bool :=
  match OrdMap.find (stEqual ty) m key with
  | none =>
    match func key 0 false with
    | (.stContinue, key', value') => (m ++ [(key', value')], false)
    | _ => (m, false)
  | some (k, v) =>
    match func k v true with
    | (.stContinue, key', value') =>
      (m.map fun p => if stEqual ty key p.1 then (key', value') else p, true)
    | (.stDelete, _, _) => (OrdMap.erase (stEqual ty) m key, true)
    | _ => (m, true)

/-- **`st_update`** does to what the table holds what `updateView` does to the map. -/
theorem Inv.update_view (hinv : Inv ty tab) (hty : LawfulHashType ty) {key : StData}
    {func : StData → StData → Bool → StRetval × StData × StData} {r : Bool}
    (h : stUpdate fuel ty tab key func = some (tab', r)) :
    (view tab', r) = updateView ty (view tab) key func := by
  simp only [stUpdate, bind, Option.bind_eq_some_iff] at h
  obtain ⟨found, hfound, h⟩ := h
  cases found with
  | none =>
    have hfind := hinv.find_view_eq_none hty fun i e he => hinv.findEntryAndBin_none hfound he
    rw [updateView, hfind]
    dsimp only
    rcases hf : func key 0 false with ⟨ret, key', value'⟩
    rw [hf] at h
    cases ret <;> dsimp only at h ⊢
    case stContinue =>
      obtain ⟨tab2, hadd, heq⟩ := Option.bind_eq_some_iff.mp h
      obtain ⟨rfl, rfl⟩ := Prod.mk.inj (Option.some.inj heq)
      rw [hinv.addDirectWithHash_view (doHash_ne_reserved ty key) hadd]
    all_goals
      obtain ⟨rfl, rfl⟩ := Prod.mk.inj (Option.some.inj h)
      rfl
  | some p =>
    obtain ⟨bin, binInd⟩ := p
    dsimp only at h
    obtain ⟨entry, hentry, h⟩ := Option.bind_eq_some_iff.mp h
    obtain ⟨e, he, hm, -, -⟩ := hinv.findEntryAndBin_some (doHash_ne_reserved ty key) hfound
    obtain rfl : e = entry := Option.some.inj (he.2.2.1.symm.trans hentry)
    rw [updateView, hinv.find_view hty he (stEqual_of_ptrEqual hm)]
    dsimp only
    rcases hf : func e.key e.record true with ⟨ret, key', value'⟩
    rw [hf] at h
    cases ret <;> dsimp only at h ⊢ <;> obtain ⟨rfl, rfl⟩ := Prod.mk.inj (Option.some.inj h)
    case stContinue =>
      rw [hinv.view_modifyEntry hty he (stEqual_of_ptrEqual hm)
        (f := fun x => { x with key := key', record := value' }) fun _ => rfl]
    case stDelete => rw [hinv.view_deleteEntryAt hty he (stEqual_of_ptrEqual hm) binInd]
    all_goals rfl

/-! ## Traversal -/

section Foreach

variable {σ : Type} {func : σ → StData → StData → StRetval × σ} {checkP : Bool}

/-- What `st_foreach` (`st_foreach_check` with `checkP`) does to the map and what its callback
ends with: the callback is called on the pairs in order, with its state threaded through;
`ST_DELETE` erases the pair it was called on, `ST_STOP` (and `ST_CHECK` when not `checkP`)
stops the walk. -/
def foreachView {σ : Type} (func : σ → StData → StData → StRetval × σ) (checkP : Bool) :
    List (StData × StData) → σ → List (StData × StData) × σ
  | [], s => ([], s)
  | p :: m, s =>
    match func s p.1 p.2 with
    | (.stContinue, s) => (p :: (foreachView func checkP m s).1, (foreachView func checkP m s).2)
    | (.stCheck, s) =>
      if checkP then (p :: (foreachView func checkP m s).1, (foreachView func checkP m s).2)
      else (p :: m, s)
    | (.stStop, s) => (p :: m, s)
    | (.stDelete, s) => foreachView func checkP m s

variable {i : ℕ}

/-- After slot `i` is deleted, the slots below `i + 1` hold what those below `i` held. -/
theorem view_deleteEntryAt_below (binInd : Option ℕ) (hi : i < tab.entriesBound) :
    view { deleteEntryAt tab binInd i with entriesBound := i + 1 } =
      view { tab with entriesBound := i } := by
  have hbound := (deleteEntryAt_fields tab binInd i).2.2.2.2.1
  refine view_eq_of_liveAt_iff fun j e => ?_
  rw [liveAt_withBound (t := deleteEntryAt tab binInd i) (i := i + 1) (by omega),
    liveAt_deleteEntryAt_iff, liveAt_withBound (t := tab) (i := i) (by omega)]
  constructor
  · rintro ⟨⟨he, hne⟩, hj⟩
    exact ⟨he, by omega⟩
  · rintro ⟨he, hj⟩
    exact ⟨⟨he, by omega⟩, by omega⟩

/-- After slot `i` is deleted, the slots above it hold what they held. -/
theorem view_deleteEntryAt_above (binInd : Option ℕ) (hs : tab.entriesStart ≤ i) :
    view { deleteEntryAt tab binInd i with entriesStart := i + 1 } =
      view { tab with entriesStart := i + 1 } := by
  have hstart := deleteEntryAt_entriesStart tab binInd i
  refine view_eq_of_liveAt_iff fun j e => ?_
  rw [liveAt_withStart (t := deleteEntryAt tab binInd i) (i := i + 1)
      (by rw [hstart]; split <;> omega),
    liveAt_deleteEntryAt_iff, liveAt_withStart (t := tab) (i := i + 1) (by omega)]
  constructor
  · rintro ⟨⟨he, -⟩, hj⟩
    exact ⟨he, hj⟩
  · rintro ⟨he, hj⟩
    exact ⟨⟨he, by omega⟩, hj⟩

/-- **The loop of `st_general_foreach`** from slot `i`: the slots below `i` keep their pairs,
and those from `i` on are walked as `foreachView` walks them. The induction is on the slots
left; a `ST_DELETE` deletes the current slot, which the search by its own key finds again. -/
theorem Inv.foreachLoop_view (hty : LawfulHashType ty) :
    ∀ (count i : ℕ) (tab : StTable) (s : σ) {r : StTable × σ × Bool},
      Inv ty tab → tab.entriesStart ≤ i → i + count = tab.entriesBound →
        foreachLoop fuel ty func checkP i count tab s = some r →
          (view r.1, r.2.1) =
            (view { tab with entriesBound := i } ++
                (foreachView func checkP (view { tab with entriesStart := i }) s).1,
              (foreachView func checkP (view { tab with entriesStart := i }) s).2)
  | 0, i, tab, s, r, _, _, hic, h => by
    obtain rfl := (Option.some.inj h).symm
    have hend : view { tab with entriesStart := i } = [] :=
      view_eq_nil fun j e he => by
        have := he.1
        have := he.2.1
        dsimp only at *
        omega
    have hall : view { tab with entriesBound := i } = view tab := view_congr rfl (by simpa using hic) rfl
    rw [hend, hall, foreachView, List.append_nil]
  | count + 1, i, tab, s, r, hinv, hs, hic, h => by
    unfold foreachLoop at h
    split at h
    · cases h
    · rename_i curr hcurr
      have hstart := view_start (t := tab) (i := i) (by omega) hcurr
      have hbound := view_bound_succ (t := tab) hs hcurr
      -- the walk from `i + 1` over the same table
      have hnext : ∀ s', foreachLoop fuel ty func checkP (i + 1) count tab s' = some r →
          (view r.1, r.2.1) =
            (view { tab with entriesBound := i + 1 } ++
                (foreachView func checkP (view { tab with entriesStart := i + 1 }) s').1,
              (foreachView func checkP (view { tab with entriesStart := i + 1 }) s').2) :=
        fun s' h' => Inv.foreachLoop_view hty count (i + 1) tab s' hinv (by omega) (by omega) h'
      split at h
      · -- a deleted slot holds no pair
        rename_i hdel
        rw [hdel, if_pos rfl, List.nil_append] at hstart
        rw [hdel, if_pos rfl, List.append_nil] at hbound
        rw [hstart, ← hbound]
        exact hnext s h
      · rename_i hdel
        rw [Bool.not_eq_true] at hdel
        rw [hdel, if_neg Bool.false_ne_true, List.singleton_append] at hstart
        rw [hdel, if_neg Bool.false_ne_true] at hbound
        have hlive : tab.LiveAt i curr := ⟨hs, by omega, hcurr, hdel⟩
        have hwhole : view tab = view { tab with entriesBound := i } ++
            (curr.key, curr.record) :: view { tab with entriesStart := i + 1 } := by
          rw [view_split hs (by omega), hstart]
        rw [hstart]
        split at h
        · -- `ST_CONTINUE`
          rename_i s' hf
          rw [hnext s' h, hbound, foreachView]
          simp only [hf, List.append_assoc, List.singleton_append]
        · -- `ST_CHECK`
          rename_i s' hf
          split at h
          · rename_i hc
            rw [hnext s' h, hbound, foreachView]
            simp only [hf, hc, if_true, List.append_assoc, List.singleton_append]
          · rename_i hc
            obtain rfl := (Option.some.inj h).symm
            rw [foreachView]
            simp only [hf, hc, if_false, hwhole, Bool.false_eq_true]
        · -- `ST_STOP`
          rename_i s' hf
          obtain rfl := (Option.some.inj h).symm
          rw [foreachView]
          simp only [hf, hwhole]
        · -- `ST_DELETE`: the search by the current key finds the current slot
          rename_i s' hf
          dsimp only at h
          have hres : curr.hash ≠ reservedHashVal := by
            simpa [deletedEntryP] using hdel
          split at h
          · cases h
          · rename_i hfound
            have hm := hinv.findEntryAndBin_none hfound hlive
            simp [ptrEqual] at hm
          · rename_i bin binInd hfound
            obtain ⟨e, he, hm, -, -⟩ := hinv.findEntryAndBin_some hres hfound
            obtain rfl := hinv.eq_of_stEqual hlive he (stEqual_of_ptrEqual hm)
            have hinv' := hinv.delete_found hres hfound
            obtain ⟨-, -, -, -, hbound', -, -⟩ := deleteEntryAt_fields tab binInd i
            have hstart' := deleteEntryAt_entriesStart tab binInd i
            have ih := Inv.foreachLoop_view hty count (i + 1) _ s' hinv'
              (by rw [hstart']; split <;> omega) (by omega) h
            rw [ih, view_deleteEntryAt_below binInd (by omega), view_deleteEntryAt_above binInd hs,
              foreachView]
            simp only [hf]

/-- **`st_foreach` and `st_foreach_check`** call the callback on the pairs the table holds,
oldest first, each once, and leave the table holding what `foreachView` leaves. -/
theorem Inv.foreach_view (hinv : Inv ty tab) (hty : LawfulHashType ty) {s : σ} {r : StTable × σ}
    (h : stGeneralForeach fuel ty tab func s checkP = some r) :
    (view r.1, r.2) = foreachView func checkP (view tab) s := by
  unfold stGeneralForeach at h
  obtain ⟨r', hloop, rfl⟩ := Option.map_eq_some_iff.mp h
  have hloop' := Inv.foreachLoop_view hty _ _ _ _ hinv le_rfl
    (by have := hinv.start_le_bound; omega) hloop
  have hbelow : view { tab with entriesBound := tab.entriesStart } = [] :=
    view_eq_nil fun j e he => by
      have := he.1
      have := he.2.1
      dsimp only at *
      omega
  have hall : view { tab with entriesStart := tab.entriesStart } = view tab := view_congr rfl rfl rfl
  rw [hbelow, hall, List.nil_append] at hloop'
  exact hloop'

end Foreach

/-! ## Whole runs -/

/-- What a call of `st.c` answers its caller. -/
inductive StAns : Type 1 where
  /-- nothing: `st_add_direct`, `st_clear`, `st_copy` -/
  | unit
  /-- whether the key was there: `st_insert` and `st_insert2` (their `1`), `st_update`
  (`existing`) -/
  | found (b : Bool)
  /-- the pair taken out, if any: `st_delete` and `st_shift` (`*key`, `*value`) -/
  | removed (p : Option (StData × StData))
  /-- the record or the stored key, if any: `st_lookup`, `st_get_key` -/
  | value (v : Option StData)
  /-- the state the callback of `st_foreach` ends with -/
  | state {σ : Type} (s : σ)

/-- A call on a table: an operation, or a lookup. -/
inductive StCall : Type 1 where
  /-- an operation of `StOp` -/
  | op (op : StOp)
  /-- `st_lookup(tab, key, &value)` -/
  | lookup (key : StData)
  /-- `st_get_key(tab, key, &result)` -/
  | getKey (key : StData)

/-- The table a call leaves and what it answers, its search loops run with `fuel`. -/
def StCall.call (fuel : ℕ) (ty : StHashType) (tab : StTable) : StCall → Option (StTable × StAns)
  | .op (.insert key value) => (stInsert fuel ty tab key value).map fun r => (r.1, .found r.2)
  | .op (.insert2 key value func) =>
    (stInsert2 fuel ty tab key value func).map fun r => (r.1, .found r.2)
  | .op (.addDirect key value) => (stAddDirect fuel ty tab key value).map fun t => (t, .unit)
  | .op (.delete key) => (stDelete fuel ty tab key).map fun r => (r.1, .removed r.2)
  | .op .shift => (stShift fuel ty tab).map fun r => (r.1, .removed r.2)
  | .op (.update key func) => (stUpdate fuel ty tab key func).map fun r => (r.1, .found r.2)
  | .op (.foreach func arg checkP) =>
    (stGeneralForeach fuel ty tab func arg checkP).map fun r => (r.1, .state r.2)
  | .op .clear => some (stClear tab, .unit)
  | .op .copy => some (stCopy tab, .unit)
  | .lookup key => (stLookup fuel ty tab key).map fun v => (tab, .value v)
  | .getKey key => (stGetKey fuel ty tab key).map fun v => (tab, .value v)

/-- What a call does to the map and answers. -/
def StCall.callView (ty : StHashType) (m : List (StData × StData)) :
    StCall → List (StData × StData) × StAns
  | .op (.insert key value) =>
    (OrdMap.insert (stEqual ty) m key key value, .found (OrdMap.find (stEqual ty) m key).isSome)
  | .op (.insert2 key value func) =>
    (OrdMap.insert (stEqual ty) m key (func key) value,
      .found (OrdMap.find (stEqual ty) m key).isSome)
  | .op (.addDirect key value) => (m ++ [(key, value)], .unit)
  | .op (.delete key) =>
    (OrdMap.erase (stEqual ty) m key, .removed (OrdMap.find (stEqual ty) m key))
  | .op .shift => (m.tail, .removed m.head?)
  | .op (.update key func) => ((updateView ty m key func).1, .found (updateView ty m key func).2)
  | .op (.foreach func arg checkP) =>
    ((foreachView func checkP m arg).1, .state (foreachView func checkP m arg).2)
  | .op .clear => ([], .unit)
  | .op .copy => (m, .unit)
  | .lookup key => (m, .value (OrdMap.lookup (stEqual ty) m key))
  | .getKey key => (m, .value ((OrdMap.find (stEqual ty) m key).map Prod.fst))

/-- What the callers of a call promise, stated on the map: `st_insert2`'s `func` and
`st_update`'s callback answer keys `EQUAL` to the ones they get, and `st_add_direct` is called
on a key the map does not hold. -/
def StCall.Allowed (ty : StHashType) (m : List (StData × StData)) : StCall → Prop
  | .op (.insert2 _ _ func) => ∀ k, stEqual ty k (func k) = true
  | .op (.addDirect key _) => ∀ p ∈ m, stEqual ty key p.1 = false
  | .op (.update _ func) => ∀ k v ex, stEqual ty k (func k v ex).2.1 = true
  | _ => True

/-- The calls one after another, each with `fuel`: the last table and the answers. -/
def StCall.calls (fuel : ℕ) (ty : StHashType) : StTable → List StCall →
    Option (StTable × List StAns)
  | tab, [] => some (tab, [])
  | tab, c :: cs =>
    (c.call fuel ty tab).bind fun r =>
      (StCall.calls fuel ty r.1 cs).map fun r' => (r'.1, r.2 :: r'.2)

/-- The calls on the map: the last map and the answers. -/
def StCall.callsView (ty : StHashType) :
    List (StData × StData) → List StCall → List (StData × StData) × List StAns
  | m, [] => (m, [])
  | m, c :: cs =>
    ((StCall.callsView ty (c.callView ty m).1 cs).1,
      (c.callView ty m).2 :: (StCall.callsView ty (c.callView ty m).1 cs).2)

/-- Every call of a run is made as its callers promise, on the map the run has built. -/
def StCall.AllowedRun (ty : StHashType) : List (StData × StData) → List StCall → Prop
  | _, [] => True
  | m, c :: cs => c.Allowed ty m ∧ StCall.AllowedRun ty (c.callView ty m).1 cs

/-- `st_clear` leaves nothing. -/
theorem view_stClear : view (stClear tab) = [] :=
  view_eq_nil fun i _ he => Nat.not_lt_zero i he.2.1

/-- **One call**: the invariant is kept, and the table and the answer are the map's. -/
theorem Inv.call_view (hinv : Inv ty tab) (hty : LawfulHashType ty) {c : StCall}
    (hallowed : c.Allowed ty (view tab)) {r : StTable × StAns}
    (h : c.call fuel ty tab = some r) :
    Inv ty r.1 ∧ (view r.1, r.2) = c.callView ty (view tab) := by
  cases c with
  | op op =>
    cases op with
    | insert key value =>
      obtain ⟨⟨t, b⟩, hop, rfl⟩ := Option.map_eq_some_iff.mp h
      obtain ⟨hv, hb⟩ := hinv.insertWith_view hty hop
      exact ⟨hinv.insertWith hty (stEqual_self ty key) hop, by rw [hv, hb]; rfl⟩
    | insert2 key value func =>
      obtain ⟨⟨t, b⟩, hop, rfl⟩ := Option.map_eq_some_iff.mp h
      obtain ⟨hv, hb⟩ := hinv.insertWith_view hty hop
      exact ⟨hinv.insertWith hty (hallowed key) hop, by rw [hv, hb]; rfl⟩
    | addDirect key value =>
      obtain ⟨t, hop, rfl⟩ := Option.map_eq_some_iff.mp h
      -- the promise on the map is the promise on the live entries
      have habs : ∀ i e, tab.LiveAt i e → stEqual ty key e.key = false :=
        fun i e he => hallowed _ (mem_view.mpr ⟨i, e, he, rfl⟩)
      exact ⟨hinv.addDirect hty habs hop,
        by rw [hinv.addDirectWithHash_view (doHash_ne_reserved ty key) hop]; rfl⟩
    | delete key =>
      obtain ⟨⟨t, p⟩, hop, rfl⟩ := Option.map_eq_some_iff.mp h
      obtain ⟨hv, hp⟩ := hinv.delete_view hty hop
      exact ⟨hinv.generalDelete hop, by rw [hv, hp]; rfl⟩
    | shift =>
      obtain ⟨⟨t, p⟩, hop, rfl⟩ := Option.map_eq_some_iff.mp h
      obtain ⟨hv, hp⟩ := hinv.shift_view hty hop
      exact ⟨hinv.shift hop, by rw [hv, hp]; rfl⟩
    | update key func =>
      obtain ⟨⟨t, b⟩, hop, rfl⟩ := Option.map_eq_some_iff.mp h
      have hv := hinv.update_view hty hop
      exact ⟨hinv.update hty hallowed hop, by
        show (view t, StAns.found b) = _
        rw [show view t = (updateView ty (view tab) key func).1 from congrArg Prod.fst hv,
          show b = (updateView ty (view tab) key func).2 from congrArg Prod.snd hv]
        rfl⟩
    | foreach func arg checkP =>
      obtain ⟨⟨t, s'⟩, hop, rfl⟩ := Option.map_eq_some_iff.mp h
      have hv := hinv.foreach_view hty hop
      exact ⟨hinv.generalForeach hop, by
        show (view t, StAns.state s') = _
        rw [show view t = (foreachView func checkP (view tab) arg).1 from congrArg Prod.fst hv,
          show s' = (foreachView func checkP (view tab) arg).2 from congrArg Prod.snd hv]
        rfl⟩
    | clear =>
      obtain rfl := (Option.some.inj h).symm
      exact ⟨hinv.clear, by rw [view_stClear]; rfl⟩
    | copy =>
      obtain rfl := (Option.some.inj h).symm
      exact ⟨hinv, rfl⟩
  | lookup key =>
    obtain ⟨v, hop, rfl⟩ := Option.map_eq_some_iff.mp h
    exact ⟨hinv, by rw [(hinv.lookup_view hty key).1 v hop]; rfl⟩
  | getKey key =>
    obtain ⟨v, hop, rfl⟩ := Option.map_eq_some_iff.mp h
    exact ⟨hinv, by rw [(hinv.lookup_view hty key).2 v hop]; rfl⟩

/-- **A run of calls** from a table that satisfies `Inv` answers what the same calls answer on
the map the table holds, and leaves the table holding the map they leave. -/
theorem Inv.calls_view (hty : LawfulHashType ty) :
    ∀ (cs : List StCall) (tab : StTable) {r : StTable × List StAns}, Inv ty tab →
      StCall.AllowedRun ty (view tab) cs → StCall.calls fuel ty tab cs = some r →
        (view r.1, r.2) = StCall.callsView ty (view tab) cs
  | [], tab, r, _, _, h => by
    obtain rfl := (Option.some.inj h).symm
    rfl
  | c :: cs, tab, r, hinv, ⟨hc, hcs⟩, h => by
    obtain ⟨r1, h1, h2⟩ := Option.bind_eq_some_iff.mp h
    obtain ⟨r2, h2', rfl⟩ := Option.map_eq_some_iff.mp h2
    obtain ⟨hinv1, hview1⟩ := hinv.call_view hty hc h1
    have hv1 : view r1.1 = (c.callView ty (view tab)).1 := congrArg Prod.fst hview1
    have ha1 : r1.2 = (c.callView ty (view tab)).2 := congrArg Prod.snd hview1
    have ih := Inv.calls_view hty cs r1.1 hinv1 (by rw [hv1]; exact hcs) h2'
    rw [hv1] at ih
    rw [StCall.callsView, ← ih, ha1]

/-- **`st.c` implements an insertion-ordered map.** On a table made by
`st_init_table_with_size`, every run of calls (`st_insert`, `st_insert2`, `st_add_direct`,
`st_delete`, `st_shift`, `st_update`, `st_foreach`, `st_foreach_check`, `st_clear`, `st_copy`,
`st_lookup`, `st_get_key`), each made as its callers promise, that returns gives the answers the
same calls give on an association list with keys compared by `EQUAL`, and leaves the table
holding the pairs the list holds, in insertion order. -/
theorem calls_refine (hty : LawfulHashType ty) {size : ℕ} {tab₀ : StTable}
    (hinit : stInitTableWithSize size = some tab₀) {cs : List StCall}
    (hallowed : StCall.AllowedRun ty [] cs) {r : StTable × List StAns}
    (h : StCall.calls fuel ty tab₀ cs = some r) :
    (view r.1, r.2) = StCall.callsView ty [] cs := by
  have hinv : Inv ty tab₀ := Inv.init hinit
  -- a new table holds nothing
  have hempty : view tab₀ = [] := view_eq_nil fun i e he => by
    have := he.2.1
    rw [(stInitTableWithSize_spec hinit).2.2.2.2.2.2.2.1] at this
    exact Nat.not_lt_zero i this
  rw [← hempty] at hallowed ⊢
  exact hinv.calls_view hty cs tab₀ hallowed h

/-- A numeric table: `st_insert(5, 7)`, `st_lookup(5)`, `st_delete(5)`, `st_lookup(5)`. -/
theorem calls_refine_insert_delete :
    (view ⟨2, 3, 0, 0, 1, 1, none, [⟨reservedHashVal, 5, 7⟩], 0⟩,
        [StAns.found false, .value (some 7), .removed (some (5, 7)), .value none]) =
      StCall.callsView stHashtypeNum []
        [.op (.insert 5 7), .lookup 5, .op (.delete 5), .lookup 5] :=
  calls_refine lawfulHashType_num
    (show stInitTableWithSize 0 = some ⟨2, 3, 0, 0, 0, 0, none, [], 0⟩ from rfl)
    (by exact ⟨trivial, trivial, trivial, trivial, trivial⟩)
    (show StCall.calls 1 stHashtypeNum _ _ =
        some (⟨2, 3, 0, 0, 1, 1, none, [⟨reservedHashVal, 5, 7⟩], 0⟩,
          [StAns.found false, .value (some 7), .removed (some (5, 7)), .value none]) from rfl)

end CRuby.St
