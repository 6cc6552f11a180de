import CRuby.St.Rebuild

/-!
# `st.c`: every operation keeps the invariant

Each operation of `CRuby.St.Ops` that answers on a table satisfying `Inv` answers a table
satisfying `Inv`, under what its callers promise: the type's `EQUAL` is an equivalence that
hashes alike (`LawfulHashType`), `st_insert2`'s `func` and `st_update`'s callback give keys
`EQUAL` to the ones they get, and `st_add_direct` is called on an absent key.

The proofs follow the code: the spec lemmas of the searches (`CRuby.St.Search`) say which
entry a search found, or that the key is absent, and the write that follows is one of those
of `CRuby.St.Writes`.
-/

namespace CRuby.St

open Probing

variable {ty : StHashType} {tab tab' : StTable} {fuel : ℕ}

/-! ## The searches of the operations -/

/-- **Found.** The search of `st_general_delete`, `st_update` and `st_general_foreach`
answers a live entry with the key, and, on a table with bins, the bin that holds it. -/
theorem Inv.findEntryAndBin_some (hinv : Inv ty tab) {hash : ℕ} {key : StData}
    (hres : hash ≠ reservedHashVal) {bin : ℕ} {binInd : Option ℕ}
    (h : findEntryAndBin fuel ty tab hash key = some (some (bin, binInd))) :
    ∃ e, tab.LiveAt bin e ∧ ptrEqual ty e hash key = true ∧
      (tab.bins = none → binInd = none) ∧
      ∀ bins, tab.bins = some bins → ∃ b, binInd = some b ∧ getBin bins b = bin + entryBase := by
  unfold findEntryAndBin at h
  rcases hb : tab.bins with - | bins
  · rw [hb] at h
    simp only [Option.some.injEq, Option.map_eq_some_iff, Prod.mk.injEq] at h
    obtain ⟨i, hfind, rfl, rfl⟩ := h
    obtain ⟨e, he, hm⟩ := findEntry_eq_some hres hfind
    exact ⟨e, he, hm, fun _ => rfl, fun _ hbins => by cases hbins⟩
  · rw [hb] at h
    simp only [findTableBinInd, Option.map_map, Option.map_eq_some_iff, Function.comp_apply,
      Prod.mk.injEq] at h
    obtain ⟨r, hloop, ⟨ind, v⟩, rfl, rfl, rfl⟩ := h
    obtain ⟨-, hget, hge, e, he, hm⟩ := findBinLoop_eq_some_some (hinv.bins_inv bins hb) hloop
    have he' : tab.LiveAt (getBin bins ind - entryBase) e := by
      rw [hget]
      exact he
    refine ⟨e, he', hm, fun hnone => ?_, fun bins' hbins' => ?_⟩
    · cases hnone
    · obtain rfl := Option.some.inj hbins'
      refine ⟨ind, rfl, ?_⟩
      rw [hget]
      omega

/-- **Absent.** When that search answers `UNDEFINED`, no live entry matches. -/
theorem Inv.findEntryAndBin_none (hinv : Inv ty tab) {hash : ℕ} {key : StData}
    (h : findEntryAndBin fuel ty tab hash key = some none) {i : ℕ} {e : StTableEntry}
    (he : tab.LiveAt i e) : ptrEqual ty e hash key = false := by
  unfold findEntryAndBin at h
  rcases hb : tab.bins with - | bins
  · rw [hb] at h
    simp only [Option.some.injEq, Option.map_eq_none_iff] at h
    exact findEntry_eq_none h he
  · rw [hb] at h
    simp only [findTableBinInd, Option.map_map, Option.map_eq_some_iff, Function.comp_apply] at h
    obtain ⟨r, hloop, hr⟩ := h
    cases r with
    | none => exact findBinLoop_eq_some_none (hinv.bins_inv bins hb) hloop he
    | some p => cases hr

/-- `entries[entries_bound++] = e`. -/
theorem appendEntry_eq_some {e : StTableEntry} (h : appendEntry tab e = some tab') :
    tab' = { tab with entriesBound := tab.entriesBound + 1, entries := tab.entries ++ [e] } := by
  unfold appendEntry at h
  split at h
  · exact (Option.some.inj h).symm
  · cases h

/-- `st_shift`'s scan answers a live slot of the range it scans. -/
theorem firstLive_eq_some : ∀ (i count : ℕ) {j : ℕ} {e : StTableEntry},
    firstLive tab i count = some (j, e) →
      i ≤ j ∧ j < i + count ∧ tab.entries[j]? = some e ∧ deletedEntryP e = false
  | _, 0, _, _, h => by cases h
  | i, count + 1, j, e, h => by
    unfold firstLive at h
    split at h
    · rename_i e' he'
      split at h
      · obtain ⟨h1, h2, h3, h4⟩ := firstLive_eq_some (i + 1) count h
        exact ⟨by omega, by omega, h3, h4⟩
      · rename_i hdel
        cases h
        exact ⟨le_refl _, by omega, he', by simpa using hdel⟩
    · obtain ⟨h1, h2, h3, h4⟩ := firstLive_eq_some (i + 1) count h
      exact ⟨by omega, by omega, h3, h4⟩

/-- When `st_shift`'s scan finds nothing, every slot it scanned is deleted. -/
theorem firstLive_eq_none : ∀ (i count : ℕ), firstLive tab i count = none →
    ∀ j e, i ≤ j → j < i + count → tab.entries[j]? = some e → deletedEntryP e = true
  | _, 0, _, _, _, h1, h2, _ => by omega
  | i, count + 1, h, j, e, h1, h2, hj => by
    unfold firstLive at h
    split at h
    · rename_i e' he'
      split at h
      · rename_i hdel
        rcases Nat.lt_or_eq_of_le h1 with hlt | rfl
        · exact firstLive_eq_none (i + 1) count h j e hlt (by omega) hj
        · rw [StTable.entry?, hj] at he'
          obtain rfl := Option.some.inj he'
          exact hdel
      · cases h
    · rename_i he'
      rcases Nat.lt_or_eq_of_le h1 with hlt | rfl
      · exact firstLive_eq_none (i + 1) count h j e hlt (by omega) hj
      · rw [StTable.entry?, hj] at he'
        cases he'

/-! ## Insertion -/

section Insert

variable {key value : StData}

/-- A key no live entry has: every key `EQUAL` to it is apart from every live key. -/
theorem Inv.keysApart_of_absent (hinv : Inv ty tab) (hty : LawfulHashType ty)
    (habs : ∀ i e, tab.LiveAt i e → ptrEqual ty e (doHash ty key) key = false)
    (e₀ : StTableEntry) (hkey : stEqual ty key e₀.key = true) :
    ∀ i e, tab.LiveAt i e → KeysApart ty e₀ e := by
  intro i e he
  obtain ⟨h1, h2⟩ := hinv.keysApart_of_ptrEqual hty he (habs i e he)
  exact (show KeysApart ty ⟨0, key, 0⟩ e from ⟨h1, h2⟩).of_stEqual hty hkey

/-- **`st_insert` and `st_insert2`** keep the invariant, when the key stored for a new entry
is `EQUAL` to the key. -/
theorem Inv.insertWith (hinv : Inv ty tab) (hty : LawfulHashType ty)
    {newKey : StData → StData} (hnew : stEqual ty key (newKey key) = true) {r : Bool}
    (h : stInsertWith fuel ty tab key value newKey = some (tab', r)) : Inv ty tab' := by
  simp only [stInsertWith, bind, Option.bind_eq_some_iff] at h
  obtain ⟨tab1, hreb, h⟩ := h
  obtain ⟨hinv1, -, hroom⟩ := hinv.rebuildIfNecessary hreb
  -- the new entry stores the hash of `key`, which is that of its own key
  have hhash : (⟨doHash ty key, newKey key, value⟩ : StTableEntry).hash =
      doHash ty (newKey key) := hty.doHash_eq _ _ hnew
  have hapart := fun habs =>
    hinv1.keysApart_of_absent hty habs ⟨doHash ty key, newKey key, value⟩ hnew
  rcases hb : tab1.bins with - | bins
  · -- linear search
    rw [hb] at h
    dsimp only at h
    rcases hf : findEntry ty tab1 (doHash ty key) key with - | bin
    · -- a new key is appended
      rw [hf] at h
      obtain ⟨tab2, happ, heq⟩ := Option.bind_eq_some_iff.mp h
      obtain rfl := (Prod.mk.inj (Option.some.inj heq)).1.symm
      rw [appendEntry_eq_some happ]
      exact hinv1.append hhash (hapart fun i e he => findEntry_eq_none hf he) hroom
        (fun bins hbins => by rw [hb] at hbins; cases hbins) fun _ => rfl
    · -- the record of the key's entry is replaced
      rw [hf] at h
      obtain rfl := (Prod.mk.inj (Option.some.inj h)).1.symm
      obtain ⟨e, he, -⟩ := findEntry_eq_some (doHash_ne_reserved ty key) hf
      exact hinv1.modifyEntry hty he (fun _ => rfl) (stEqual_self ty e.key)
  · -- open addressing
    rw [hb] at h
    dsimp only at h
    obtain ⟨⟨tab2, entryIndex, c⟩, hres, h⟩ := Option.bind_eq_some_iff.mp h
    dsimp only at h
    have hbinv := hinv1.bins_inv bins hb
    cases entryIndex with
    | none =>
      -- a new key is appended, into the bin the search reserved
      obtain ⟨⟨bins', rfl, hbins'⟩, hc, hcv, hreach, habs⟩ :=
        findTableBinPtrAndReserve_eq_some_none hbinv hb hres
      dsimp only at h
      obtain ⟨tab3, happ, heq⟩ := Option.bind_eq_some_iff.mp h
      obtain rfl := (Prod.mk.inj (Option.some.inj heq)).1.symm
      rw [appendEntry_eq_some happ]
      have hset : setBin bins' tab1.sizeInd c (tab1.entriesBound + entryBase) =
          setBin bins tab1.sizeInd c (tab1.entriesBound + entryBase) := by
        rcases hbins' with rfl | rfl
        · rfl
        · exact setBin_setBin_self _ _ _ _ _
      refine hinv1.append hhash (hapart habs) hroom (fun B hB => ?_)
        fun hnone => by rw [hb] at hnone; cases hnone
      rw [hb] at hB
      obtain rfl := Option.some.inj hB
      refine ⟨c, hc, hcv, hreach, ?_⟩
      show some (setBin bins' tab1.sizeInd c (tab1.entriesBound + entryBase)) = _
      rw [hset]
    | some v =>
      -- the record of the key's entry is replaced
      dsimp only at h
      obtain rfl := (Prod.mk.inj (Option.some.inj h)).1.symm
      obtain ⟨htab, -, -, -, e, he, -⟩ := findTableBinPtrAndReserve_eq_some_some hbinv hres
      subst htab
      exact hinv1.modifyEntry hty he (fun _ => rfl) (stEqual_self ty e.key)

/-- **`st_add_direct_with_hash`** keeps the invariant on a key whose entry would be apart from
every live one, stored with its key's hash. -/
theorem Inv.addDirectWithHash (hinv : Inv ty tab) {hash : ℕ}
    (hhash : hash = doHash ty key)
    (habs : ∀ i e, tab.LiveAt i e → KeysApart ty ⟨hash, key, value⟩ e)
    (h : stAddDirectWithHash fuel tab key value hash = some tab') : Inv ty tab' := by
  simp only [stAddDirectWithHash, bind, Option.bind_eq_some_iff] at h
  obtain ⟨tab1, hreb, tab2, happ, h⟩ := h
  obtain ⟨hinv1, hlive1, hroom⟩ := hinv.rebuildIfNecessary hreb
  rw [appendEntry_eq_some happ] at h
  -- the rebuild kept the live entries, so the key is still absent
  have habs1 : ∀ i e, tab1.LiveAt i e → KeysApart ty ⟨hash, key, value⟩ e := by
    intro i e he
    have hmem : e ∈ liveEntries tab := hlive1 ▸ mem_liveEntries.mpr ⟨i, he⟩
    obtain ⟨j, hj⟩ := mem_liveEntries.mp hmem
    exact habs j e hj
  dsimp only at h
  rcases hb : tab1.bins with - | bins
  · rw [hb] at h
    obtain rfl := (Option.some.inj h).symm
    exact hinv1.append hhash habs1 hroom (fun bins hbins => by rw [hb] at hbins; cases hbins)
      fun _ => rfl
  · -- the entry takes the first empty or deleted bin of its probe sequence
    rw [hb] at h
    obtain ⟨b, hd, heq⟩ := Option.bind_eq_some_iff.mp h
    obtain rfl := (Option.some.inj heq).symm
    obtain ⟨hblt, hbv, hreach⟩ := findTableBinIndDirect_eq_some hd
    refine hinv1.append hhash habs1 hroom (fun B hB => ?_)
      fun hnone => by rw [hb] at hnone; cases hnone
    rw [hb] at hB
    obtain rfl := Option.some.inj hB
    exact ⟨b, hblt, hbv, hreach, rfl⟩

/-- **`st_add_direct`** keeps the invariant on a key no live entry has. -/
theorem Inv.addDirect (hinv : Inv ty tab) (hty : LawfulHashType ty)
    (habs : ∀ i e, tab.LiveAt i e → stEqual ty key e.key = false)
    (h : stAddDirect fuel ty tab key value = some tab') : Inv ty tab' := by
  refine hinv.addDirectWithHash rfl (fun i e he => ⟨habs i e he, ?_⟩) h
  rw [Bool.eq_false_iff]
  intro hk
  have := habs i e he
  rw [hty.symm _ _ hk] at this
  cases this

end Insert

/-! ## Deletion -/

/-- Deleting the entry the shared search found keeps the invariant. -/
theorem Inv.delete_found (hinv : Inv ty tab) {hash : ℕ} {key : StData}
    (hres : hash ≠ reservedHashVal) {bin : ℕ} {binInd : Option ℕ}
    (h : findEntryAndBin fuel ty tab hash key = some (some (bin, binInd))) :
    Inv ty (deleteEntryAt tab binInd bin) := by
  obtain ⟨e, he, -, hnone, hbin⟩ := hinv.findEntryAndBin_some hres h
  exact hinv.delete he hbin hnone

/-- **`st_delete`** keeps the invariant. -/
theorem Inv.generalDelete (hinv : Inv ty tab) {key : StData} {r : Option (StData × StData)}
    (h : stGeneralDelete fuel ty tab key = some (tab', r)) : Inv ty tab' := by
  simp only [stGeneralDelete, bind, Option.bind_eq_some_iff] at h
  obtain ⟨found, hfound, h⟩ := h
  cases found with
  | none =>
    obtain rfl := (Prod.mk.inj (Option.some.inj h)).1.symm
    exact hinv
  | some p =>
    obtain ⟨bin, binInd⟩ := p
    dsimp only at h
    obtain ⟨entry, -, heq⟩ := Option.bind_eq_some_iff.mp h
    obtain rfl := (Prod.mk.inj (Option.some.inj heq)).1.symm
    exact hinv.delete_found (doHash_ne_reserved ty key) hfound

/-- **`st_shift`** keeps the invariant: it deletes the first live entry, found again through
its bin, or, with no live entry left, resets the range. -/
theorem Inv.shift (hinv : Inv ty tab) {r : Option (StData × StData)}
    (h : stShift fuel ty tab = some (tab', r)) : Inv ty tab' := by
  unfold stShift at h
  split at h
  · -- no live entry: the range is reset
    rename_i hfirst
    obtain rfl := (Prod.mk.inj (Option.some.inj h)).1.symm
    refine hinv.reset fun i e he => ?_
    have hdel := firstLive_eq_none _ _ hfirst i e he.1 (by have := he.2.1; omega) he.2.2.1
    rw [he.2.2.2] at hdel
    cases hdel
  · rename_i i curr hfirst
    obtain ⟨h1, h2, h3, h4⟩ := firstLive_eq_some _ _ hfirst
    have hlive : tab.LiveAt i curr := ⟨h1, by omega, h3, h4⟩
    split at h
    · rename_i hb
      obtain rfl := (Prod.mk.inj (Option.some.inj h)).1.symm
      exact hinv.delete hlive (fun bins hbins => by rw [hb] at hbins; cases hbins) fun _ => rfl
    · -- the entry's bin is found by its key
      rename_i bins hb
      simp only [bind, Option.bind_eq_some_iff] at h
      obtain ⟨binInd?, hfind, binInd, rfl, heq⟩ := h
      obtain rfl := (Prod.mk.inj (Option.some.inj heq)).1.symm
      simp only [findTableBinInd, Option.map_eq_some_iff] at hfind
      obtain ⟨r', hloop, ⟨ind, v⟩, rfl, rfl⟩ := hfind
      obtain ⟨-, hget, hge, e, he, hm⟩ := findBinLoop_eq_some_some (hinv.bins_inv bins hb) hloop
      have hkey : stEqual ty curr.key e.key = true := by
        simp only [ptrEqual, Bool.and_eq_true] at hm
        exact hm.2
      have hslot := hinv.eq_of_stEqual hlive he hkey
      refine hinv.delete hlive (fun bins' hbins' => ?_) fun hnone => by rw [hb] at hnone; cases hnone
      rw [hb] at hbins'
      obtain rfl := Option.some.inj hbins'
      exact ⟨ind, rfl, by rw [hget, hslot]; omega⟩


/-! ## Update -/

/-- **`st_update`** keeps the invariant when its callback answers keys `EQUAL` to the ones it
gets: the callback's key replaces the stored one, or a new entry is added for it. -/
theorem Inv.update (hinv : Inv ty tab) (hty : LawfulHashType ty) {key : StData}
    {func : StData → StData → Bool → StRetval × StData × StData}
    (hfunc : ∀ k v ex, stEqual ty k (func k v ex).2.1 = true) {r : Bool}
    (h : stUpdate fuel ty tab key func = some (tab', r)) : Inv ty tab' := by
  simp only [stUpdate, bind, Option.bind_eq_some_iff] at h
  obtain ⟨found, hfound, h⟩ := h
  cases found with
  | none =>
    -- an absent key: the callback may add an entry for its key
    rcases hf : func key 0 false with ⟨ret, key', value'⟩
    have hkey : stEqual ty key key' = true := by simpa [hf] using hfunc key 0 false
    rw [hf] at h
    cases ret <;> dsimp only at h
    case stContinue =>
      obtain ⟨tab2, hadd, heq⟩ := Option.bind_eq_some_iff.mp h
      obtain rfl := (Prod.mk.inj (Option.some.inj heq)).1.symm
      refine hinv.addDirectWithHash (hty.doHash_eq _ _ hkey) ?_ hadd
      exact hinv.keysApart_of_absent hty (fun i e he => hinv.findEntryAndBin_none hfound he) _ hkey
    all_goals
      obtain rfl := (Prod.mk.inj (Option.some.inj h)).1.symm
      exact hinv
  | some p =>
    -- the key's entry: the callback may replace its key and record, or delete it
    obtain ⟨bin, binInd⟩ := p
    dsimp only at h
    obtain ⟨entry, hentry, h⟩ := Option.bind_eq_some_iff.mp h
    obtain ⟨e, he, -, hnone, hbin⟩ :=
      hinv.findEntryAndBin_some (doHash_ne_reserved ty key) hfound
    obtain rfl : e = entry := Option.some.inj (he.2.2.1.symm.trans hentry)
    rcases hf : func e.key e.record true with ⟨ret, key', value'⟩
    have hkey : stEqual ty e.key key' = true := by simpa [hf] using hfunc e.key e.record true
    rw [hf] at h
    cases ret <;> dsimp only at h <;> obtain rfl := (Prod.mk.inj (Option.some.inj h)).1.symm
    case stContinue => exact hinv.modifyEntry hty he (fun _ => rfl) hkey
    case stDelete => exact hinv.delete he hbin hnone
    all_goals exact hinv

/-! ## Traversal -/

section Foreach

variable {σ : Type} {func : σ → StData → StData → StRetval × σ} {checkP : Bool}

/-- **The loop of `st_general_foreach`** keeps the invariant from any slot of the range to the
bound: a callback's `ST_DELETE` deletes the current entry, which the search by its own key finds
again (keys are unique). -/
theorem Inv.of_foreachLoop : ∀ (count i : ℕ) (tab : StTable) (s : σ) {r : StTable × σ × Bool},
    Inv ty tab → tab.entriesStart ≤ i → i + count = tab.entriesBound →
      foreachLoop fuel ty func checkP i count tab s = some r → Inv ty r.1
  | 0, _, tab, s, r, hinv, _, _, h => by
    obtain rfl := (Option.some.inj h).symm
    exact hinv
  | count + 1, i, tab, s, r, hinv, hs, hic, h => by
    -- a step that leaves the table alone
    have hnext : ∀ s', foreachLoop fuel ty func checkP (i + 1) count tab s' = some r → Inv ty r.1 :=
      fun s' h' => Inv.of_foreachLoop count (i + 1) tab s' hinv (by omega) (by omega) h'
    unfold foreachLoop at h
    split at h
    · cases h
    · rename_i curr hcurr
      split at h
      · exact hnext s h
      · rename_i hdel
        rw [Bool.not_eq_true] at hdel
        have hlive : tab.LiveAt i curr := ⟨hs, by omega, hcurr, hdel⟩
        split at h
        · exact hnext _ h
        · split at h
          · exact hnext _ h
          · obtain rfl := (Option.some.inj h).symm
            exact hinv
        · obtain rfl := (Option.some.inj h).symm
          exact hinv
        · -- `ST_DELETE`: the current entry is deleted
          rename_i s' _
          dsimp only at h
          split at h
          · cases h
          · exact hnext s' h
          · rename_i bin binInd hfound
            have hres : curr.hash ≠ reservedHashVal := by
              simpa [deletedEntryP] using hdel
            obtain ⟨e, he, hm, -, -⟩ := hinv.findEntryAndBin_some hres hfound
            have hkey : stEqual ty curr.key e.key = true := by
              simp only [ptrEqual, Bool.and_eq_true] at hm
              exact hm.2
            obtain rfl := hinv.eq_of_stEqual hlive he hkey
            have hinv' := hinv.delete_found hres hfound
            obtain ⟨-, -, -, -, hbound, -, -⟩ := deleteEntryAt_fields tab binInd i
            have hstart := deleteEntryAt_entriesStart tab binInd i
            refine Inv.of_foreachLoop count (i + 1) _ s' hinv' ?_ (by omega) h
            rw [hstart]
            split <;> omega

/-- **`st_foreach` and `st_foreach_check`** keep the invariant, whatever the callback
answers. -/
theorem Inv.generalForeach (hinv : Inv ty tab) {s : σ} {r : StTable × σ}
    (h : stGeneralForeach fuel ty tab func s checkP = some r) : Inv ty r.1 := by
  unfold stGeneralForeach at h
  obtain ⟨r', hloop, rfl⟩ := Option.map_eq_some_iff.mp h
  exact Inv.of_foreachLoop _ _ _ _ hinv (le_refl _)
    (by have := hinv.start_le_bound; omega) hloop

end Foreach

end CRuby.St
