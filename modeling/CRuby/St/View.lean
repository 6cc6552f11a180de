import CRuby.St.Preserve
import CRuby.Lib.OrdMap

/-!
# `st.c`: what a table holds

What a table holds for its users is the list of the keys and records of its live entries, in
the order they were inserted: `view tab`. The live entries are read off the live slots
(`StTable.LiveAt`), so each kind of write, already described by what it does to the live slots
(`CRuby.St.Writes`), is described here by what it does to that list:

* a write that keeps every live slot keeps the list (`liveEntries_eq_of_liveAt_iff`);
* a write that changes the entry of live slots maps it (`liveEntries_map_of_liveAt`);
* a deletion filters it (`liveEntries_filter_of_liveAt`);
* an append adds at its end (`liveEntries_append`).

On a table that satisfies `Inv` the keys of `view tab` are distinct (`Inv.view_distinct`) and
an entry whose key matches a given key is the only one that does, so that it is what
`OrdMap.find` answers (`Inv.find_view`, `Inv.find_view_eq_none`). Each write of the table is
then one of `OrdMap`'s operations on `view`.
-/

namespace CRuby.St

/-- The keys and records of the live entries, oldest first. -/
def view (tab : StTable) : List (StData × StData) :=
  (liveEntries tab).map fun e => (e.key, e.record)

variable {ty : StHashType} {tab tab' : StTable}

/-! ## The live entries across a write -/

section Writes

/-- Two tables with the same live slots list them alike. -/
theorem liveSlots_eq_of_mem_iff (h : ∀ i, i ∈ liveSlots tab' ↔ i ∈ liveSlots tab) :
    liveSlots tab' = liveSlots tab :=
  List.Pairwise.eq_of_mem_iff liveSlots_sorted liveSlots_sorted h

/-- A write that replaces the entry of every live slot by `f` of it maps the live entries. -/
theorem liveEntries_map_of_liveAt {f : StTableEntry → StTableEntry}
    (h : ∀ i e', tab'.LiveAt i e' ↔ ∃ e, tab.LiveAt i e ∧ f e = e') :
    liveEntries tab' = (liveEntries tab).map f := by
  have hslots : liveSlots tab' = liveSlots tab := by
    refine liveSlots_eq_of_mem_iff fun i => ?_
    rw [mem_liveSlots, mem_liveSlots]
    constructor
    · rintro ⟨e', he'⟩
      obtain ⟨e, he, -⟩ := (h i e').mp he'
      exact ⟨e, he⟩
    · rintro ⟨e, he⟩
      exact ⟨f e, (h i (f e)).mpr ⟨e, he, rfl⟩⟩
  refine List.ext_getElem? fun j => Option.ext fun e' => ?_
  rw [getElem?_liveEntries, List.getElem?_map, Option.map_eq_some_iff, hslots]
  simp only [getElem?_liveEntries, h]
  constructor
  · rintro ⟨i, hi, e, he, rfl⟩
    exact ⟨e, ⟨i, hi, he⟩, rfl⟩
  · rintro ⟨e, ⟨i, hi, he⟩, rfl⟩
    exact ⟨i, hi, e, he, rfl⟩

/-- A write that keeps every live slot keeps the live entries. -/
theorem liveEntries_eq_of_liveAt_iff (h : ∀ i e, tab'.LiveAt i e ↔ tab.LiveAt i e) :
    liveEntries tab' = liveEntries tab := by
  have : liveEntries tab' = (liveEntries tab).map id := liveEntries_map_of_liveAt fun i e' => by
    rw [h]
    exact ⟨fun he => ⟨e', he, rfl⟩, fun ⟨e, he, hf⟩ => hf ▸ he⟩
  rwa [List.map_id] at this

/-- A write that keeps the live slots whose entry passes `q`, and no other, filters the live
entries. -/
theorem liveEntries_filter_of_liveAt {q : StTableEntry → Bool}
    (h : ∀ i e, tab'.LiveAt i e ↔ tab.LiveAt i e ∧ q e = true) :
    liveEntries tab' = (liveEntries tab).filter q := by
  -- the entry of a live slot, as `liveEntries_eq_map` reads it
  have hget : ∀ (t : StTable) i e, t.LiveAt i e → t.entries.getD i ⟨0, 0, 0⟩ = e := by
    intro t i e he
    rw [List.getD_eq_getElem?_getD, he.2.2.1, Option.getD_some]
  have hslots : liveSlots tab' =
      (liveSlots tab).filter fun i => q (tab.entries.getD i ⟨0, 0, 0⟩) := by
    refine List.Pairwise.eq_of_mem_iff liveSlots_sorted (liveSlots_sorted.filter _) fun i => ?_
    rw [List.mem_filter, mem_liveSlots, mem_liveSlots]
    constructor
    · rintro ⟨e, he⟩
      obtain ⟨he1, hq⟩ := (h i e).mp he
      exact ⟨⟨e, he1⟩, by rwa [hget tab i e he1]⟩
    · rintro ⟨⟨e, he⟩, hq⟩
      rw [hget tab i e he] at hq
      exact ⟨e, (h i e).mpr ⟨he, hq⟩⟩
  rw [liveEntries_eq_map, liveEntries_eq_map, hslots, List.filter_map]
  refine List.map_congr_left fun i hi => ?_
  obtain ⟨e, he⟩ := mem_liveSlots.mp (hslots ▸ hi)
  rw [hget tab' i e he, hget tab i e ((h i e).mp he).1]

/-- `entries[entries_bound++] = e₀` adds `e₀` after the live entries. -/
theorem liveEntries_append (hlen : tab.entries.length = tab.entriesBound)
    (hsb : tab.entriesStart ≤ tab.entriesBound) {e₀ : StTableEntry}
    (hdel : deletedEntryP e₀ = false) :
    liveEntries { tab with entriesBound := tab.entriesBound + 1, entries := tab.entries ++ [e₀] } =
      liveEntries tab ++ [e₀] := by
  have hlast : (tab.entries ++ [e₀])[tab.entriesBound]? = some e₀ := by
    rw [List.getElem?_append_right (by omega), hlen, Nat.sub_self]
    rfl
  have hsucc := @liveEntries_bound_succ
    { tab with entriesBound := tab.entriesBound + 1, entries := tab.entries ++ [e₀] } _ hsb _ hlast
  rw [hdel, if_neg Bool.false_ne_true] at hsucc
  rw [hsucc]
  congr 1
  -- below the old bound the appended array holds the old entries
  refine liveEntries_eq_of_liveAt_iff fun i e => ?_
  unfold StTable.LiveAt
  dsimp only
  constructor
  · rintro ⟨h1, h2, h3, h4⟩
    rw [List.getElem?_append_left (by omega)] at h3
    exact ⟨h1, h2, h3, h4⟩
  · rintro ⟨h1, h2, h3, h4⟩
    exact ⟨h1, h2, (List.getElem?_append_left (by omega)).trans h3, h4⟩

end Writes

/-! ## The view of a table that satisfies the invariant -/

section Inv

theorem mem_view {p : StData × StData} :
    p ∈ view tab ↔ ∃ i e, tab.LiveAt i e ∧ (e.key, e.record) = p := by
  rw [view, List.mem_map]
  constructor
  · rintro ⟨e, he, rfl⟩
    obtain ⟨i, hi⟩ := mem_liveEntries.mp he
    exact ⟨i, e, hi, rfl⟩
  · rintro ⟨i, e, hi, rfl⟩
    exact ⟨e, mem_liveEntries.mpr ⟨i, hi⟩, rfl⟩

/-- **The keys a table holds are distinct** under its `EQUAL`. -/
theorem Inv.view_distinct (hinv : Inv ty tab) : OrdMap.Distinct (stEqual ty) (view tab) := by
  rw [OrdMap.Distinct, view, liveEntries_eq_map, List.map_map, List.pairwise_map]
  refine liveSlots_sorted.imp_of_mem fun {i j} hi hj hij => ?_
  obtain ⟨e, he⟩ := mem_liveSlots.mp hi
  obtain ⟨e', he'⟩ := mem_liveSlots.mp hj
  have hapart := hinv.keys_apart i j e e' he he' (Nat.ne_of_lt hij)
  simp only [Function.comp, List.getD_eq_getElem?_getD, he.2.2.1, he'.2.2.1, Option.getD_some]
  exact hapart

/-- A live entry whose key matches `key` is the only pair of the view that matches it. -/
theorem Inv.eq_of_mem_view (hinv : Inv ty tab) (hty : LawfulHashType ty) {n : ℕ}
    {e₀ : StTableEntry} (hn : tab.LiveAt n e₀) {key : StData} (hk : stEqual ty key e₀.key = true)
    {p : StData × StData} (hp : p ∈ view tab) (hpk : stEqual ty key p.1 = true) :
    p = (e₀.key, e₀.record) := by
  obtain ⟨i, e, he, rfl⟩ := mem_view.mp hp
  have hslot := hinv.eq_of_stEqual hn he (hty.trans _ _ _ (hty.symm _ _ hk) hpk)
  subst hslot
  rw [hn.unique he]

/-- **Found.** The pair of a live entry whose key matches is what `find` answers. -/
theorem Inv.find_view (hinv : Inv ty tab) (hty : LawfulHashType ty) {n : ℕ} {e₀ : StTableEntry}
    (hn : tab.LiveAt n e₀) {key : StData} (hk : stEqual ty key e₀.key = true) :
    OrdMap.find (stEqual ty) (view tab) key = some (e₀.key, e₀.record) :=
  OrdMap.find_eq_some_of_unique (mem_view.mpr ⟨n, e₀, hn, rfl⟩) hk
    fun _ hp hpk => hinv.eq_of_mem_view hty hn hk hp hpk

/-- **Absent.** When no live entry matches `key` under its hash, `find` answers nothing. -/
theorem Inv.find_view_eq_none (hinv : Inv ty tab) (hty : LawfulHashType ty) {key : StData}
    (h : ∀ i e, tab.LiveAt i e → ptrEqual ty e (doHash ty key) key = false) :
    OrdMap.find (stEqual ty) (view tab) key = none := by
  refine OrdMap.find_eq_none fun p hp => ?_
  obtain ⟨i, e, he, rfl⟩ := mem_view.mp hp
  exact (hinv.keysApart_of_ptrEqual hty he (h i e he)).1

/-- A match under the key's hash is a match of the keys. -/
theorem stEqual_of_ptrEqual {e : StTableEntry} {hash : ℕ} {key : StData}
    (h : ptrEqual ty e hash key = true) : stEqual ty key e.key = true := by
  simp only [ptrEqual, Bool.and_eq_true] at h
  exact h.2

end Inv

/-! ## Each write on the view -/

section ViewWrites

/-- A write that keeps every live slot keeps the view. -/
theorem view_eq_of_liveAt_iff (h : ∀ i e, tab'.LiveAt i e ↔ tab.LiveAt i e) :
    view tab' = view tab := by
  rw [view, view, liveEntries_eq_of_liveAt_iff h]

/-- A write that keeps the range and the entries keeps the view. -/
theorem view_congr (hs : tab'.entriesStart = tab.entriesStart)
    (hb : tab'.entriesBound = tab.entriesBound) (he : tab'.entries = tab.entries) :
    view tab' = view tab :=
  view_eq_of_liveAt_iff fun _ _ => liveAt_congr hs hb he

/-- Setting a bin keeps the view. -/
@[simp]
theorem view_setBinAt (b v : ℕ) : view (tab.setBinAt b v) = view tab :=
  view_congr rfl rfl rfl

/-- **Append.** The new entry's pair comes last. -/
theorem view_append (hlen : tab.entries.length = tab.entriesBound)
    (hsb : tab.entriesStart ≤ tab.entriesBound) {e₀ : StTableEntry}
    (hdel : deletedEntryP e₀ = false) :
    view { tab with entriesBound := tab.entriesBound + 1, entries := tab.entries ++ [e₀] } =
      view tab ++ [(e₀.key, e₀.record)] := by
  rw [view, view, liveEntries_append hlen hsb hdel, List.map_append, List.map_singleton]

/-- **Modify.** Replacing the entry of the live slot whose key matches `key`, keeping its hash,
replaces the pair that matches `key`. -/
theorem Inv.view_modifyEntry (hinv : Inv ty tab) (hty : LawfulHashType ty) {n : ℕ}
    {e₀ : StTableEntry} (hn : tab.LiveAt n e₀) {key : StData} (hk : stEqual ty key e₀.key = true)
    {f : StTableEntry → StTableEntry} (hf : ∀ e, (f e).hash = e.hash) :
    view (tab.modifyEntry n f) =
      (view tab).map fun p => if stEqual ty key p.1 then ((f e₀).key, (f e₀).record) else p := by
  -- on the live entries, the write is `f e₀` on the one whose key matches
  have hmap : liveEntries (tab.modifyEntry n f) =
      (liveEntries tab).map fun e => if stEqual ty key e.key then f e₀ else e := by
    refine liveEntries_map_of_liveAt fun i e' => ?_
    rw [liveAt_modifyEntry_iff hf]
    constructor
    · rintro (⟨hi, he'⟩ | ⟨rfl, e₁, he₁, rfl⟩)
      · refine ⟨e', he', ?_⟩
        rw [(hinv.keysApart_of_ptrEqual hty he' ?_).1, if_neg Bool.false_ne_true]
        rw [Bool.eq_false_iff]
        intro hm
        exact hi (hinv.eq_of_stEqual he' hn
          (hty.trans _ _ _ (hty.symm _ _ (stEqual_of_ptrEqual hm)) hk))
      · obtain rfl := hn.unique he₁
        exact ⟨e₀, hn, by rw [if_pos hk]⟩
    · rintro ⟨e, he, rfl⟩
      by_cases hke : stEqual ty key e.key = true
      · have hslot := hinv.eq_of_stEqual hn he (hty.trans _ _ _ (hty.symm _ _ hk) hke)
        subst hslot
        obtain rfl := hn.unique he
        exact .inr ⟨rfl, e₀, hn, by rw [if_pos hke]⟩
      · rw [if_neg hke]
        refine .inl ⟨fun hi => ?_, he⟩
        subst hi
        rw [hn.unique he] at hk
        exact hke hk
  rw [view, view, hmap, List.map_map, List.map_map]
  refine List.map_congr_left fun e _ => ?_
  simp only [Function.comp]
  split <;> rfl

/-- **Delete.** Deleting the live slot whose key matches `key` erases `key`. -/
theorem Inv.view_deleteEntryAt (hinv : Inv ty tab) (hty : LawfulHashType ty) {n : ℕ}
    {e₀ : StTableEntry} (hn : tab.LiveAt n e₀) {key : StData} (hk : stEqual ty key e₀.key = true)
    (binInd : Option ℕ) :
    view (deleteEntryAt tab binInd n) = OrdMap.erase (stEqual ty) (view tab) key := by
  have hfilter : liveEntries (deleteEntryAt tab binInd n) =
      (liveEntries tab).filter fun e => !stEqual ty key e.key := by
    refine liveEntries_filter_of_liveAt fun i e => ?_
    rw [liveAt_deleteEntryAt_iff, Bool.not_eq_true', and_congr_right_iff]
    intro he
    constructor
    · intro hi
      rw [Bool.eq_false_iff]
      intro hke
      exact hi (hinv.eq_of_stEqual he hn (hty.trans _ _ _ (hty.symm _ _ hke) hk))
    · intro hke hi
      subst hi
      rw [hn.unique he, hke] at hk
      cases hk
  rw [view, view, hfilter, OrdMap.erase, List.filter_map]
  rfl

end ViewWrites

/-! ## Parts of the range

`st_general_foreach` and `st_shift` walk the range a slot at a time: the view of
`[entries_start, entries_bound)` is that of `[entries_start, i)` followed by that of
`[i, entries_bound)`, and the latter is slot `i`'s pair, if it is live, followed by the rest. -/

section Range

variable {t : StTable} {i : ℕ}

/-- A table with no live slot holds nothing. -/
theorem view_eq_nil (h : ∀ i e, ¬ t.LiveAt i e) : view t = [] := by
  rw [List.eq_nil_iff_forall_not_mem]
  intro p hp
  obtain ⟨i, e, he, -⟩ := mem_view.mp hp
  exact h i e he

theorem view_split (hs : t.entriesStart ≤ i) (hb : i ≤ t.entriesBound) :
    view t = view { t with entriesBound := i } ++ view { t with entriesStart := i } := by
  unfold view liveEntries liveSlots
  dsimp only
  rw [show t.entriesBound - t.entriesStart = (i - t.entriesStart) + (t.entriesBound - i) by
      omega, ← List.range'_append_1, Nat.add_sub_cancel' hs, List.filter_append,
    List.filterMap_append, List.map_append]
  rfl

theorem liveAt_withBound (hi : i ≤ t.entriesBound) {j : ℕ} {e : StTableEntry} :
    { t with entriesBound := i }.LiveAt j e ↔ t.LiveAt j e ∧ j < i := by
  unfold StTable.LiveAt
  dsimp only
  constructor
  · rintro ⟨h1, h2, h3, h4⟩
    exact ⟨⟨h1, by omega, h3, h4⟩, h2⟩
  · rintro ⟨⟨h1, -, h3, h4⟩, h2⟩
    exact ⟨h1, h2, h3, h4⟩

theorem liveAt_withStart (hi : t.entriesStart ≤ i) {j : ℕ} {e : StTableEntry} :
    { t with entriesStart := i }.LiveAt j e ↔ t.LiveAt j e ∧ i ≤ j := by
  unfold StTable.LiveAt
  dsimp only
  constructor
  · rintro ⟨h1, h2, h3, h4⟩
    exact ⟨⟨by omega, h2, h3, h4⟩, h1⟩
  · rintro ⟨⟨-, h2, h3, h4⟩, h1⟩
    exact ⟨h1, h2, h3, h4⟩

/-- The pair of slot `i`, if it is live, after those below it. -/
theorem view_bound_succ (hs : t.entriesStart ≤ i) {curr : StTableEntry}
    (hcurr : t.entries[i]? = some curr) :
    view { t with entriesBound := i + 1 } =
      view { t with entriesBound := i } ++
        if deletedEntryP curr then [] else [(curr.key, curr.record)] := by
  rw [view, view, liveEntries_bound_succ hs hcurr, List.map_append]
  split <;> rfl

/-- The pair of slot `i`, if it is live, before those above it. -/
theorem view_start (hi : i < t.entriesBound) {curr : StTableEntry}
    (hcurr : t.entries[i]? = some curr) :
    view { t with entriesStart := i } =
      (if deletedEntryP curr then [] else [(curr.key, curr.record)]) ++
        view { t with entriesStart := i + 1 } := by
  have hsplit := view_split (t := { t with entriesStart := i }) (i := i + 1) (Nat.le_succ i)
    (Nat.succ_le_of_lt hi)
  have hsucc := view_bound_succ (t := { t with entriesStart := i }) le_rfl hcurr
  -- `[i, i)` holds nothing
  have hnil : view { t with entriesStart := i, entriesBound := i } = [] :=
    view_eq_nil fun j e he => by
      have := he.1
      have := he.2.1
      dsimp only at *
      omega
  rw [hsplit]
  exact congrArg (· ++ _) (hsucc.trans (by rw [hnil, List.nil_append]))

end Range

end CRuby.St
