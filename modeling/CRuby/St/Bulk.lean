import CRuby.St.Divergence

/-!
# `st.c`: `rb_hash_bulk_insert`

`rb_hash_bulk_insert` adds the pairs of a Hash literal (or of a `core#hash_merge_ptr`) to the
hash's table. It expands the table to hold `num_entries + argc / 2` entries, and then:

* on an empty table, one pair is appended directly (`st_insert_single`), and several pairs
  are inserted one by one with `st_insert` when the table has no more than `2 ^ 4` bins
  (`st_insert_linear`);
* otherwise every pair is appended directly and the table reindexed (`st_insert_generic`):
  `st_rehash_linear` drops the bins and resolves duplicate keys by copying the later entry
  over the earlier one, `st_rehash_indexed` refills the bins and gives the earlier entry the
  later record.

The size of the expansion counts the live entries, while `st_insert_single` appends at
`entries_bound` and checks nothing: a table whose range still holds deleted entries receives
entries past its array (`bulk_insert_writes_past_entries`).
-/

namespace CRuby.St

open Probing

/-! ## Expansion -/

/-- `st_expand_table`: a table with room for `siz` entries. The old entries stay where they are
and the bins are dropped, for `st_rehash` to rebuild. -/
def stExpandTable (tab : StTable) (siz : ℕ) : Option StTable :=
  if siz ≤ getAllocatedEntries tab then some tab
  else do
    let tmp ← stInitTableWithSize siz
    pure { tab with entryPower := tmp.entryPower, binPower := tmp.binPower,
                    sizeInd := tmp.sizeInd, bins := none, rebuildsNum := tab.rebuildsNum + 1 }

/-! ## Reindexing -/

/-- The inner loop of `st_rehash_linear` for the entry `p` at `i`, over `j ∈ [j, j + count)`:
a later live entry `q` whose key matches is copied over `p` and deleted. `none` reads a slot
outside the array. -/
def rehashLinearInner (ty : StHashType) (i : ℕ) : (j count : ℕ) → StTable → Option StTable
  | _, 0, tab => some tab
  | j, count + 1, tab =>
    match tab.entries[i]?, tab.entries[j]? with
    | some p, some q =>
      if deletedEntryP q then rehashLinearInner ty i (j + 1) count tab
      else if ptrEqual ty p q.hash q.key then
        -- `*p = *q; MARK_ENTRY_DELETED(q); num_entries--; update_range_for_deleted(tab, j)`
        let tab := (tab.modifyEntry i fun _ => q).modifyEntry j markEntryDeleted
        rehashLinearInner ty i (j + 1) count
          (updateRangeForDeleted { tab with numEntries := tab.numEntries - 1 } j)
      else rehashLinearInner ty i (j + 1) count tab
    | _, _ => none

/-- The outer loop of `st_rehash_linear` over `i ∈ [i, i + count)`. -/
def rehashLinearOuter (ty : StHashType) : (i count : ℕ) → StTable → Option StTable
  | _, 0, tab => some tab
  | i, count + 1, tab =>
    match tab.entries[i]? with
    | none => none
    | some p =>
      if deletedEntryP p then rehashLinearOuter ty (i + 1) count tab
      else do
        let tab ← rehashLinearInner ty i (i + 1) (tab.entriesBound - (i + 1)) tab
        rehashLinearOuter ty (i + 1) count tab

/-- `st_rehash_linear`: free the bins, then resolve duplicate keys pairwise. -/
def stRehashLinear (ty : StHashType) (tab : StTable) : Option StTable :=
  let tab := { tab with bins := none }
  rehashLinearOuter ty tab.entriesStart (tab.entriesBound - tab.entriesStart) tab

/-- What the probe of `st_rehash_indexed` for an entry finds. -/
inductive RehashFound where
  /-- an empty or deleted bin, at this index -/
  | room (ind : ℕ)
  /-- a bin whose value `bin` points at an entry with the key -/
  | duplicate (bin : ℕ)
  deriving DecidableEq

/-- The look of the probe loop of `st_rehash_indexed` for the entry `p`, at `(ind, peterb)`. -/
def rehashLook (ty : StHashType) (tab : StTable) (bins : List ℕ) (p : StTableEntry)
    (s : ℕ × ℕ) : Look RehashFound :=
  let bin := getBin bins s.1
  if emptyOrDeletedBinP bin then .found (.room s.1)
  else
    match tab.entries[bin - entryBase]? with
    | none => .stuck
    | some q => if ptrEqual ty q p.hash p.key then .found (.duplicate bin) else .next

/-- The loop of `st_rehash_indexed` over `i ∈ [i, i + count)`, with the bins being filled. A
new key takes the first empty or deleted bin of its probe sequence; a duplicate gives its
record to the earlier entry and is deleted. -/
def rehashIndexedLoop (fuel : ℕ) (ty : StHashType) : (i count : ℕ) → StTable → List ℕ →
    Option (StTable × List ℕ)
  | _, 0, tab, bins => some (tab, bins)
  | i, count + 1, tab, bins =>
    match tab.entries[i]? with
    | none => none
    | some p =>
      if deletedEntryP p then rehashIndexedLoop fuel ty (i + 1) count tab bins
      else do
        let found ← walk (probeStep tab.binPower) (rehashLook ty tab bins p) fuel
          (probe tab.binPower p.hash 0)
        match found with
        | .room ind =>
          rehashIndexedLoop fuel ty (i + 1) count tab (setBin bins tab.sizeInd ind (i + entryBase))
        | .duplicate bin =>
          -- `q->record = p->record; MARK_ENTRY_DELETED(p); num_entries--;`
          -- `update_range_for_deleted(tab, bin)`
          let tab := (tab.modifyEntry (bin - entryBase) fun q => { q with record := p.record })
            |>.modifyEntry i markEntryDeleted
          rehashIndexedLoop fuel ty (i + 1) count
            (updateRangeForDeleted { tab with numEntries := tab.numEntries - 1 } bin) bins

/-- `st_rehash_indexed`: fresh bins, then every live entry entered or merged into an earlier
one. -/
def stRehashIndexed (fuel : ℕ) (ty : StHashType) (tab : StTable) : Option StTable := do
  let (tab', bins) ← rehashIndexedLoop fuel ty tab.entriesStart
    (tab.entriesBound - tab.entriesStart) tab (initializeBins tab.binPower)
  pure { tab' with bins := some bins }

/-- `st_rehash`: linear for tables of at most `2 ^ 4` bins, indexed otherwise. -/
def stRehash (fuel : ℕ) (ty : StHashType) (tab : StTable) : Option StTable :=
  if tab.binPower ≤ maxPower2ForTablesWithoutBins then stRehashLinear ty tab
  else stRehashIndexed fuel ty tab

/-! ## The three ways in -/

/-- `st_insert_single`: `tab->entries[tab->entries_bound++] = e`, with no check that the slot
is inside the array. The key is `st_stringify`'d. -/
def stInsertSingle (ty : StHashType) (stringify : StData → StData) (tab : StTable)
    (key val : StData) : StTable :=
  let k := stringify key
  { tab with entries := tab.entries ++ [⟨doHash ty k, k, val⟩],
             entriesBound := tab.entriesBound + 1, numEntries := tab.numEntries + 1 }

/-- `st_insert_linear`: `st_insert` each pair in turn. -/
def stInsertLinear (fuel : ℕ) (ty : StHashType) (stringify : StData → StData) :
    List (StData × StData) → StTable → Option StTable
  | [], tab => some tab
  | (key, val) :: pairs, tab => do
    let (tab, _) ← stInsert fuel ty tab (stringify key) val
    stInsertLinear fuel ty stringify pairs tab

/-- `st_insert_generic`: append every pair, then `st_rehash`. -/
def stInsertGeneric (fuel : ℕ) (ty : StHashType) (stringify : StData → StData)
    (pairs : List (StData × StData)) (tab : StTable) : Option StTable :=
  stRehash fuel ty (pairs.foldl (fun tab kv => stInsertSingle ty stringify tab kv.1 kv.2) tab)

/-- `rb_hash_bulk_insert(argc, argv, hash)` on the hash's table `ntbl` (`none` for a hash
without one yet), with `argv` given as its `argc / 2` pairs. A hash without a table gets one
of `argc / 2` entries. The table the hash holds afterwards. -/
def rbHashBulkInsert (fuel : ℕ) (ty : StHashType) (stringify : StData → StData)
    (pairs : List (StData × StData)) (ntbl : Option StTable) : Option (Option StTable) :=
  match pairs with
  | [] => some ntbl
  | (key, val) :: rest => do
    let tab ← match ntbl with
      | some tab => some tab
      | none => stInitTableWithSize pairs.length
    let tab ← stExpandTable tab (tab.numEntries + pairs.length)
    if tab.numEntries ≠ 0 then (stInsertGeneric fuel ty stringify pairs tab).map some
    else if rest = [] then some (some (stInsertSingle ty stringify tab key val))
    else if tab.binPower ≤ maxPower2ForTablesWithoutBins then
      (stInsertLinear fuel ty stringify pairs tab).map some
    else (stInsertGeneric fuel ty stringify pairs tab).map some

/-! ## What reindexing leaves in place

Reindexing rewrites entries, the count, `entries_start` and the bins, but neither the array's
size nor `entries_bound`: the entries `st_insert_generic` pushed stay where they were written. -/

section Frame

variable {ty : StHashType} {fuel : ℕ}

@[simp] theorem updateRangeForDeleted_entriesBound (tab : StTable) (n : ℕ) :
    (updateRangeForDeleted tab n).entriesBound = tab.entriesBound := by
  unfold updateRangeForDeleted
  split <;> rfl

@[simp] theorem updateRangeForDeleted_entryPower (tab : StTable) (n : ℕ) :
    (updateRangeForDeleted tab n).entryPower = tab.entryPower := by
  unfold updateRangeForDeleted
  split <;> rfl

theorem rehashLinearInner_frame {i : ℕ} : ∀ count j tab tab',
    rehashLinearInner ty i j count tab = some tab' →
      tab'.entriesBound = tab.entriesBound ∧ tab'.entryPower = tab.entryPower := by
  intro count
  induction count with
  | zero =>
    intro j tab tab' h
    obtain rfl := Option.some.inj h
    exact ⟨rfl, rfl⟩
  | succ count ih =>
    intro j tab tab' h
    unfold rehashLinearInner at h
    split at h
    · split_ifs at h
      · exact ih _ _ _ h
      · -- a duplicate: the entries change, the array does not
        have := ih _ _ _ h
        simpa [StTable.modifyEntry] using this
      · exact ih _ _ _ h
    · cases h

theorem rehashLinearOuter_frame : ∀ count i tab tab',
    rehashLinearOuter ty i count tab = some tab' →
      tab'.entriesBound = tab.entriesBound ∧ tab'.entryPower = tab.entryPower := by
  intro count
  induction count with
  | zero =>
    intro i tab tab' h
    obtain rfl := Option.some.inj h
    exact ⟨rfl, rfl⟩
  | succ count ih =>
    intro i tab tab' h
    unfold rehashLinearOuter at h
    split at h
    · cases h
    · split_ifs at h
      · exact ih _ _ _ h
      · obtain ⟨t, ht, hrest⟩ := Option.bind_eq_some_iff.mp h
        obtain ⟨hb, hp⟩ := rehashLinearInner_frame _ _ _ _ ht
        obtain ⟨hb', hp'⟩ := ih _ _ _ hrest
        exact ⟨hb'.trans hb, hp'.trans hp⟩

theorem rehashIndexedLoop_frame : ∀ count i tab bins tab' bins',
    rehashIndexedLoop fuel ty i count tab bins = some (tab', bins') →
      tab'.entriesBound = tab.entriesBound ∧ tab'.entryPower = tab.entryPower := by
  intro count
  induction count with
  | zero =>
    intro i tab bins tab' bins' h
    cases h
    exact ⟨rfl, rfl⟩
  | succ count ih =>
    intro i tab bins tab' bins' h
    unfold rehashIndexedLoop at h
    split at h
    · cases h
    · split_ifs at h
      · exact ih _ _ _ _ _ h
      · obtain ⟨found, -, hrest⟩ := Option.bind_eq_some_iff.mp h
        cases found with
        | room ind => exact ih _ _ _ _ _ hrest
        | duplicate bin =>
          have := ih _ _ _ _ _ hrest
          simpa [StTable.modifyEntry] using this

/-- `st_rehash` keeps the array and `entries_bound`. -/
theorem stRehash_frame {tab tab' : StTable} (h : stRehash fuel ty tab = some tab') :
    tab'.entriesBound = tab.entriesBound ∧ tab'.entryPower = tab.entryPower := by
  unfold stRehash at h
  split at h
  · exact rehashLinearOuter_frame _ _ { tab with bins := none } _ h
  · obtain ⟨⟨t, bins⟩, hloop, ht⟩ := Option.bind_eq_some_iff.mp h
    obtain rfl := Option.some.inj ht
    have hframe := rehashIndexedLoop_frame _ _ _ _ _ _ hloop
    exact hframe

end Frame

/-! ## Entries past the array -/

section Past

variable {ty : StHashType} {stringify : StData → StData} {fuel : ℕ}

/-- Pushing the pairs appends one entry per pair at `entries_bound`, in an array of the same
size. -/
theorem foldl_stInsertSingle : ∀ (pairs : List (StData × StData)) (tab : StTable),
    (pairs.foldl (fun tab kv => stInsertSingle ty stringify tab kv.1 kv.2) tab).entriesBound =
        tab.entriesBound + pairs.length ∧
      (pairs.foldl (fun tab kv => stInsertSingle ty stringify tab kv.1 kv.2) tab).entryPower =
        tab.entryPower
  | [], tab => ⟨rfl, rfl⟩
  | kv :: pairs, tab => by
    obtain ⟨hb, hp⟩ := foldl_stInsertSingle pairs (stInsertSingle ty stringify tab kv.1 kv.2)
    rw [List.foldl_cons, hb, hp, List.length_cons]
    exact ⟨by simp only [stInsertSingle]; omega, rfl⟩

/-- `st_insert_generic` leaves `entries_bound` past the pushed pairs, in the same array. -/
theorem stInsertGeneric_frame {pairs : List (StData × StData)} {tab tab' : StTable}
    (h : stInsertGeneric fuel ty stringify pairs tab = some tab') :
    tab'.entriesBound = tab.entriesBound + pairs.length ∧ tab'.entryPower = tab.entryPower := by
  obtain ⟨hb, hp⟩ := stRehash_frame h
  obtain ⟨hb', hp'⟩ := @foldl_stInsertSingle ty stringify pairs tab
  exact ⟨hb.trans hb', hp.trans hp'⟩

/-- **`rb_hash_bulk_insert` writes past the entries array** when the live entries and the new
pairs fit the array, so that `st_expand_table` keeps it, but `entries_bound` and the pairs do
not, on every path that appends directly: a table with live entries, a single pair, or more
than `2 ^ 4` bins. -/
theorem rbHashBulkInsert_past_entries {pairs : List (StData × StData)} {tab tab' : StTable}
    (hnum : tab.numEntries + pairs.length ≤ getAllocatedEntries tab)
    (hbound : getAllocatedEntries tab < tab.entriesBound + pairs.length)
    (hpath : tab.numEntries ≠ 0 ∨ pairs.length = 1 ∨ maxPower2ForTablesWithoutBins < tab.binPower)
    (h : rbHashBulkInsert fuel ty stringify pairs (some tab) = some (some tab')) :
    getAllocatedEntries tab' < tab'.entriesBound := by
  -- the generic path ends with the pushed entries in the same array
  have hgeneric : stInsertGeneric fuel ty stringify pairs tab = some tab' →
      getAllocatedEntries tab' < tab'.entriesBound := by
    intro hg
    obtain ⟨hb, hp⟩ := stInsertGeneric_frame hg
    rw [getAllocatedEntries, hp, hb]
    exact hbound
  cases pairs with
  | nil =>
    -- no pair: the table is left as it is
    obtain rfl := Option.some.inj (Option.some.inj h)
    exact hbound
  | cons kv rest =>
    obtain ⟨key, val⟩ := kv
    have hexp : stExpandTable tab (tab.numEntries + ((key, val) :: rest).length) = some tab := by
      rw [stExpandTable, if_pos hnum]
    simp only [rbHashBulkInsert, bind, Option.bind_some, hexp] at h
    by_cases h0 : tab.numEntries = 0
    · rw [if_neg (not_not.mpr h0)] at h
      by_cases hrest : rest = []
      · -- one pair, appended at `entries_bound`
        subst hrest
        rw [if_pos rfl] at h
        obtain rfl := Option.some.inj (Option.some.inj h)
        simp only [List.length_singleton] at hbound
        exact hbound
      · rw [if_neg hrest] at h
        have hbp : maxPower2ForTablesWithoutBins < tab.binPower := by
          rcases hpath with h' | h' | h'
          · exact absurd h0 h'
          · simp only [List.length_cons, Nat.add_eq_right, List.length_eq_zero_iff] at h'
            exact absurd h' hrest
          · exact h'
        rw [if_neg (Nat.not_le_of_lt hbp)] at h
        obtain ⟨t, ht, hteq⟩ := Option.map_eq_some_iff.mp h
        obtain rfl := Option.some.inj hteq
        exact hgeneric ht
    · rw [if_pos h0] at h
      obtain ⟨t, ht, hteq⟩ := Option.map_eq_some_iff.mp h
      obtain rfl := Option.some.inj hteq
      exact hgeneric ht

end Past

/-! ## Runs that show it

Three runs on the numeric table type and on a type whose `EQUAL` keys may differ. -/

/-- Four `st_insert`s of key `1`, each followed by `st_delete`. -/
def insertDeleteOps : List StOp :=
  [.insert 1 1, .delete 1, .insert 1 1, .delete 1, .insert 1 1, .delete 1, .insert 1 1, .delete 1]

/-- What `insertDeleteOps` leave of `st_init_numtable()`: four deleted entries in an array of
four, `entries_start = entries_bound = 4`, no live entry. -/
def deletedFourTable : StTable :=
  ⟨2, 3, 0, 0, 4, 4, none, List.replicate 4 ⟨reservedHashVal, 1, 1⟩, 0⟩

theorem insertDeleteOps_allowed {ty : StHashType} :
    ∀ op ∈ insertDeleteOps, ∀ t, op.Allowed ty t := by
  intro op hop t
  simp only [insertDeleteOps, List.mem_cons, List.not_mem_nil, or_false] at hop
  rcases hop with rfl | rfl | rfl | rfl | rfl | rfl | rfl | rfl <;> trivial

theorem deletedFourTable_reachable : Reachable stHashtypeNum deletedFourTable := by
  have hrun : runOps 1 stHashtypeNum insertDeleteOps ⟨2, 3, 0, 0, 0, 0, none, [], 0⟩ =
      some deletedFourTable := by decide
  exact Reachable.runOps insertDeleteOps_allowed
    (.init (show stInitTableWithSize 0 = some _ from rfl)) hrun

/-- A hash type whose keys are `EQUAL` when they agree but for their last bit. -/
def halfHashType : StHashType := ⟨fun x y => if x / 2 = y / 2 then 0 else 1, fun x => x / 2⟩

theorem stEqual_halfHashType (x y : StData) : stEqual halfHashType x y = true ↔ x / 2 = y / 2 := by
  unfold stEqual halfHashType
  by_cases hxy : x / 2 = y / 2
  · simp [hxy]
  · have hne : x ≠ y := fun h => hxy (by rw [h])
    simp [hxy, hne]

/-- `halfHashType` is a lawful type: `EQUAL` is an equivalence and `EQUAL` keys hash alike. -/
theorem lawfulHashType_half : LawfulHashType halfHashType where
  symm x y h := by
    rw [stEqual_halfHashType] at h ⊢
    exact h.symm
  trans x y z hxy hyz := by
    rw [stEqual_halfHashType] at hxy hyz ⊢
    exact hxy.trans hyz
  doHash_eq x y h := by
    rw [stEqual_halfHashType] at h
    show doHash ⟨_, fun x => x / 2⟩ x = doHash ⟨_, fun x => x / 2⟩ y
    unfold doHash
    dsimp only
    rw [h]

/-- The `halfHashType` table after `st_insert(tab, 2, 0)`. -/
def halfTable : StTable := ⟨2, 3, 0, 1, 0, 1, none, [⟨1, 2, 0⟩], 0⟩

theorem halfTable_reachable : Reachable halfHashType halfTable :=
  .step (.init (show stInitTableWithSize 0 = some _ from rfl))
    (show (StOp.insert 2 0).Allowed _ _ from trivial)
    (show (StOp.insert 2 0).run 0 _ _ = some halfTable from rfl)

/-- **`rb_hash_bulk_insert` writes past the entries array, and keeps another key than
`st_insert` would.** On the table `insertDeleteOps` build, one pair is appended at index `4`
of an array of `2 ^ 2` entries. Starting from a hash without a table, as a Hash literal does,
eight pairs with one key leave seven deleted entries, and nine new pairs are then appended up
to index `16` of an array of `2 ^ 4` entries. And where `st_rehash_linear` meets an `EQUAL` key
it keeps the later key, which `st_insert` does not store. -/
theorem bulk_insert_writes_past_entries :
    (Reachable stHashtypeNum deletedFourTable ∧ ∀ fuel,
      rbHashBulkInsert fuel stHashtypeNum id [(7, 8)] (some deletedFourTable) =
        some (some ⟨2, 3, 0, 1, 4, 5, none,
          List.replicate 4 ⟨reservedHashVal, 1, 1⟩ ++ [⟨doHash stHashtypeNum 7, 7, 8⟩], 0⟩) ∧
      getAllocatedEntries deletedFourTable = 4) ∧
    (∃ tab tab', rbHashBulkInsert 64 stHashtypeNum id (List.replicate 8 (1, 0)) none =
        some (some tab) ∧
      rbHashBulkInsert 64 stHashtypeNum id ((List.range' 2 9).map fun k => (k, 0)) (some tab) =
        some (some tab') ∧
      getAllocatedEntries tab' = 16 ∧ tab'.entriesBound = 17) ∧
    (LawfulHashType halfHashType ∧ Reachable halfHashType halfTable ∧ ∀ fuel,
      (rbHashBulkInsert fuel halfHashType id [(3, 5)] (some halfTable)).map
          (Option.map liveEntries) = some (some [⟨1, 3, 5⟩]) ∧
        (stInsertLinear fuel halfHashType id [(3, 5)] halfTable).map liveEntries =
          some [⟨1, 2, 5⟩]) := by
  refine ⟨⟨deletedFourTable_reachable, fun fuel => ⟨rfl, rfl⟩⟩, ?_,
    ⟨lawfulHashType_half, halfTable_reachable, fun fuel => ⟨rfl, rfl⟩⟩⟩
  -- the first literal: one live entry, seven deleted ones, the live one in bin `8`
  have hfirst : rbHashBulkInsert 64 stHashtypeNum id (List.replicate 8 (1, 0)) none =
      some (some ⟨4, 5, 0, 1, 0, 8, some (List.replicate 8 0 ++ [2] ++ List.replicate 23 0),
        ⟨8, 1, 0⟩ :: List.replicate 7 ⟨reservedHashVal, 1, 0⟩, 0⟩) := by
    decide
  have hsecond : (rbHashBulkInsert 64 stHashtypeNum id ((List.range' 2 9).map fun k => (k, 0))
      (some ⟨4, 5, 0, 1, 0, 8, some (List.replicate 8 0 ++ [2] ++ List.replicate 23 0),
        ⟨8, 1, 0⟩ :: List.replicate 7 ⟨reservedHashVal, 1, 0⟩, 0⟩)).map
      (Option.map fun t => (getAllocatedEntries t, t.entriesBound)) = some (some (16, 17)) := by
    decide
  obtain ⟨r, hr, hmap⟩ := Option.map_eq_some_iff.mp hsecond
  obtain ⟨tab', rfl, hsizes⟩ := Option.map_eq_some_iff.mp hmap
  obtain ⟨halloc, hbound⟩ := Prod.mk.inj hsizes
  exact ⟨_, tab', hfirst, hr, halloc, hbound⟩

end CRuby.St
