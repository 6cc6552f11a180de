import CRuby.St.Find

/-!
# `st.c`: the table operations

Each operation of `st.c` as the code computes it, with the `fuel` of its search loops
(`CRuby.St.Find`). An operation answers `none` when a loop has not left within the fuel, when
`get_power2` raises `"st_table too big"`, or when the code would write outside an array (an
entry past `2^entry_power`, a bin at `UNDEFINED_BIN_IND`); none of these happens on a table
built by the operations, except the first, which is the subject of the termination results.

Callbacks are functions of what the code passes them: `st_update`'s of the key, the value and
`existing`, answering the retval and the new key and value; `st_foreach`'s of a state of its
own, the key and the record. A `st_foreach` callback does not reach the table here, so the
loop's relookup after a rebuild inside the callback is never taken.
-/

namespace CRuby.St

/-! ## Creation -/

/-- `st_init_table_with_size`: `none` where `get_power2` raises. -/
def stInitTableWithSize (size : ℕ) : Option StTable := do
  let n ← getPower2 size
  let f := getFeatures n
  -- `malloc` leaves the bins undefined; `make_tab_empty` clears them
  pure (makeTabEmpty
    { entryPower := n, binPower := f.binPower, sizeInd := f.sizeInd,
      numEntries := 0, entriesStart := 0, entriesBound := 0,
      bins := if n ≤ maxPower2ForTablesWithoutBins then none else some [],
      entries := [], rebuildsNum := 0 })

/-- `st_clear`. -/
def stClear (tab : StTable) : StTable :=
  { makeTabEmpty tab with rebuildsNum := tab.rebuildsNum + 1 }

/-- `st_copy`: a table with the same fields, bins and entries. -/
def stCopy (tab : StTable) : StTable := tab

/-! ## Rebuilding -/

/-- The state of the copy loop of `rebuild_table`: the array written to, the new bins, the
next write index `ni` and the new table's entry count. -/
structure RebuildState where
  /-- `new_entries` -/
  newEntries : List StTableEntry
  /-- `new_tab->bins` -/
  bins : Option (List ℕ)
  /-- `ni` -/
  ni : ℕ
  /-- `new_tab->num_entries` -/
  numEntries : ℕ

/-- The copy loop of `rebuild_table` from index `i`, `count` iterations. Entries are read from
`entries`, or, when compacting in place, from `new_entries` itself, which is the same array;
a live entry is written to `new_entries[ni]` (unless it is that very slot) and entered into
the new bins at the first empty or deleted bin of its probe sequence. -/
def rebuildLoop (fuel binPower sizeInd : ℕ) (inPlace : Bool) (entries : List StTableEntry) :
    (i count : ℕ) → RebuildState → Option RebuildState
  | _, 0, st => some st
  | i, count + 1, st =>
    match (if inPlace then st.newEntries else entries)[i]? with
    | none => none
    | some curr =>
      if deletedEntryP curr then rebuildLoop fuel binPower sizeInd inPlace entries (i + 1) count st
      else
        let newEntries :=
          if inPlace && st.ni == i then st.newEntries
          else if st.ni < st.newEntries.length then st.newEntries.set st.ni curr
          else st.newEntries ++ [curr]
        let bins : Option (Option (List ℕ)) :=
          match st.bins with
          | none => some none
          | some bins =>
            (findTableBinIndDirect fuel binPower bins curr.hash).map fun binInd =>
              some (setBin bins sizeInd binInd (st.ni + entryBase))
        match bins with
        | none => none
        | some bins =>
          rebuildLoop fuel binPower sizeInd inPlace entries (i + 1) count
            ⟨newEntries, bins, st.ni + 1, st.numEntries + 1⟩

/-- `rebuild_table`: compact in place when the live entries fill between a quarter and a half
of the array (or are fewer than `2^MINIMAL_POWER2`), else move them to a new table sized for
`2 * num_entries - 1`. -/
def rebuildTable (fuel : ℕ) (tab : StTable) : Option StTable := do
  let bound := tab.entriesBound
  if (2 * tab.numEntries ≤ getAllocatedEntries tab ∧
        rebuildThreshold * tab.numEntries > getAllocatedEntries tab) ∨
      tab.numEntries < 1 <<< minimalPower2 then
    -- compaction: `new_tab == tab`, `new_entries == entries`
    let st ← rebuildLoop fuel tab.binPower tab.sizeInd true tab.entries tab.entriesStart
      (bound - tab.entriesStart)
      ⟨tab.entries, tab.bins.map fun _ => initializeBins tab.binPower, 0, 0⟩
    pure { tab with numEntries := st.numEntries, bins := st.bins,
                    entries := st.newEntries.take st.numEntries,
                    entriesStart := 0, entriesBound := st.numEntries,
                    rebuildsNum := tab.rebuildsNum + 1 }
  else
    let newTab ← stInitTableWithSize (2 * tab.numEntries - 1)
    let st ← rebuildLoop fuel newTab.binPower newTab.sizeInd false tab.entries tab.entriesStart
      (bound - tab.entriesStart) ⟨[], newTab.bins, 0, 0⟩
    -- `tab` takes the new arrays and sizes; its `num_entries` is not recounted
    pure { tab with entryPower := newTab.entryPower, binPower := newTab.binPower,
                    sizeInd := newTab.sizeInd, bins := st.bins, entries := st.newEntries,
                    entriesStart := 0, entriesBound := tab.numEntries,
                    rebuildsNum := tab.rebuildsNum + 1 }

/-- `rebuild_table_if_necessary`: rebuild when the entries array is full. -/
def rebuildTableIfNecessary (fuel : ℕ) (tab : StTable) : Option StTable :=
  if tab.entriesBound = getAllocatedEntries tab then rebuildTable fuel tab else some tab

/-! ## Writing entries -/

/-- `ind = tab->entries_bound++; tab->entries[ind] = ...`: append an entry, `none` when the
array is already full. -/
def appendEntry (tab : StTable) (e : StTableEntry) : Option StTable :=
  if tab.entriesBound < getAllocatedEntries tab then
    some { tab with entriesBound := tab.entriesBound + 1, entries := tab.entries ++ [e] }
  else none

/-- `set_bin(tab->bins, get_size_ind(tab), binInd, v)` on a table with bins. -/
def StTable.setBinAt (tab : StTable) (binInd v : ℕ) : StTable :=
  { tab with bins := tab.bins.map fun bins => setBin bins tab.sizeInd binInd v }

/-- Replace the entry at index `i`. -/
def StTable.modifyEntry (tab : StTable) (i : ℕ) (f : StTableEntry → StTableEntry) : StTable :=
  { tab with entries := tab.entries.modify i f }

/-- `update_range_for_deleted`: move `entries_start` past a deleted first entry. -/
def updateRangeForDeleted (tab : StTable) (n : ℕ) : StTable :=
  if tab.entriesStart = n then { tab with entriesStart := n + 1 } else tab

/-- Delete entry `i` whose bin (if the table has bins) is `binInd`: `MARK_BIN_DELETED`,
`MARK_ENTRY_DELETED`, `num_entries--`, `update_range_for_deleted`. -/
def deleteEntryAt (tab : StTable) (binInd : Option ℕ) (i : ℕ) : StTable :=
  let tab := match binInd with
    | some b => tab.setBinAt b deletedBin
    | none => tab
  updateRangeForDeleted
    { tab.modifyEntry i markEntryDeleted with numEntries := tab.numEntries - 1 } i

/-! ## Insertion -/

/-- The common part of `st_insert` and `st_insert2`: the key actually stored for a new entry
is `newKey key`. The new table and whether the key was present. -/
def stInsertWith (fuel : ℕ) (ty : StHashType) (tab : StTable) (key value : StData)
    (newKey : StData → StData) : Option (StTable × Bool) := do
  let tab ← rebuildTableIfNecessary fuel tab
  let hashValue := doHash ty key
  match tab.bins with
  | none =>
    match findEntry ty tab hashValue key with
    | none =>
      let tab' ← appendEntry { tab with numEntries := tab.numEntries + 1 }
        ⟨hashValue, newKey key, value⟩
      pure (tab', false)
    | some bin => pure (tab.modifyEntry bin fun e => { e with record := value }, true)
  | some bins =>
    let (tab, entryIndex, binInd) ← findTableBinPtrAndReserve fuel ty tab bins hashValue key
    match entryIndex with
    | none =>
      let ind := tab.entriesBound
      let tab' ← appendEntry tab ⟨hashValue, newKey key, value⟩
      pure (tab'.setBinAt binInd (ind + entryBase), false)
    | some bin =>
      pure (tab.modifyEntry (bin - entryBase) fun e => { e with record := value }, true)

/-- `st_insert`: `true` (the code's `1`) when the key was present and its record replaced. -/
def stInsert (fuel : ℕ) (ty : StHashType) (tab : StTable) (key value : StData) :
    Option (StTable × Bool) :=
  stInsertWith fuel ty tab key value id

/-- `st_insert2`: a new entry stores `func(key)`. -/
def stInsert2 (fuel : ℕ) (ty : StHashType) (tab : StTable) (key value : StData)
    (func : StData → StData) : Option (StTable × Bool) :=
  stInsertWith fuel ty tab key value func

/-- `st_add_direct_with_hash`: append without a search; the bin is the first empty or deleted
one of the hash's probe sequence. -/
def stAddDirectWithHash (fuel : ℕ) (tab : StTable) (key value hash : StData) :
    Option StTable := do
  let tab ← rebuildTableIfNecessary fuel tab
  let ind := tab.entriesBound
  let tab ← appendEntry tab ⟨hash, key, value⟩
  let tab := { tab with numEntries := tab.numEntries + 1 }
  match tab.bins with
  | none => pure tab
  | some bins =>
    let binInd ← findTableBinIndDirect fuel tab.binPower bins hash
    pure (tab.setBinAt binInd (ind + entryBase))

/-- `st_add_direct`. -/
def stAddDirect (fuel : ℕ) (ty : StHashType) (tab : StTable) (key value : StData) :
    Option StTable :=
  stAddDirectWithHash fuel tab key value (doHash ty key)

/-! ## Lookup -/

/-- The index of the live entry for `key`, if any: the common part of `st_lookup` and
`st_get_key`. -/
def lookupIndex (fuel : ℕ) (ty : StHashType) (tab : StTable) (key : StData) :
    Option (Option ℕ) :=
  let hash := doHash ty key
  match tab.bins with
  | none => some (findEntry ty tab hash key)
  | some bins => (findTableEntryInd fuel ty tab bins hash key).map (Option.map (· - entryBase))

/-- `st_lookup`: the record of the entry for `key`, `none` for the code's `0`. -/
def stLookup (fuel : ℕ) (ty : StHashType) (tab : StTable) (key : StData) :
    Option (Option StData) :=
  (lookupIndex fuel ty tab key).map fun bin? => bin?.bind fun bin => (tab.entry? bin).map (·.record)

/-- `st_get_key`: the stored key of the entry for `key`. -/
def stGetKey (fuel : ℕ) (ty : StHashType) (tab : StTable) (key : StData) :
    Option (Option StData) :=
  (lookupIndex fuel ty tab key).map fun bin? => bin?.bind fun bin => (tab.entry? bin).map (·.key)

/-! ## Deletion -/

/-- The search `st_general_delete`, `st_update` and `st_general_foreach` share: `find_entry`
on a table without bins, else `find_table_bin_ind` and the entry index its bin holds. The
entry index of `key` and, on a table with bins, its bin index. -/
def findEntryAndBin (fuel : ℕ) (ty : StHashType) (tab : StTable) (hash : ℕ) (key : StData) :
    Option (Option (ℕ × Option ℕ)) :=
  match tab.bins with
  | none => some ((findEntry ty tab hash key).map fun bin => (bin, none))
  | some bins =>
    (findTableBinInd fuel ty tab bins hash key).map fun binInd? =>
      binInd?.map fun binInd => (getBin bins binInd - entryBase, some binInd)

/-- `st_general_delete` (`st_delete`, `st_delete_safe`): the new table and the deleted key and
record, `none` for the code's `0`. -/
def stGeneralDelete (fuel : ℕ) (ty : StHashType) (tab : StTable) (key : StData) :
    Option (StTable × Option (StData × StData)) := do
  match ← findEntryAndBin fuel ty tab (doHash ty key) key with
  | none => pure (tab, none)
  | some (bin, binInd) =>
    let entry ← tab.entry? bin
    pure (deleteEntryAt tab binInd bin, some (entry.key, entry.record))

/-- `st_delete`. -/
def stDelete (fuel : ℕ) (ty : StHashType) (tab : StTable) (key : StData) :
    Option (StTable × Option (StData × StData)) :=
  stGeneralDelete fuel ty tab key

/-- The first live entry of `[i, i + count)`, as `st_shift` scans for it. -/
def firstLive (tab : StTable) (i : ℕ) : (count : ℕ) → Option (ℕ × StTableEntry)
  | 0 => none
  | count + 1 =>
    match tab.entry? i with
    | some e => if deletedEntryP e then firstLive tab (i + 1) count else some (i, e)
    | none => firstLive tab (i + 1) count

/-- `st_shift`: remove the oldest live entry, answering its key and record; on a table with no
live entry, reset `entries_start` and `entries_bound` to `0`. -/
def stShift (fuel : ℕ) (ty : StHashType) (tab : StTable) :
    Option (StTable × Option (StData × StData)) := do
  match firstLive tab tab.entriesStart (tab.entriesBound - tab.entriesStart) with
  | none => pure ({ tab with entriesStart := 0, entriesBound := 0, entries := [] }, none)
  | some (i, curr) =>
    match tab.bins with
    | none =>
      -- the code looks the entry up again only for its assertions
      pure (deleteEntryAt tab none i, some (curr.key, curr.record))
    | some bins =>
      let binInd? ← findTableBinInd fuel ty tab bins curr.hash curr.key
      let binInd ← binInd?
      pure (deleteEntryAt tab (some binInd) i, some (curr.key, curr.record))

/-! ## Update -/

/-- `st_update`: look `key` up, call `func` on the stored (or given) key, the stored record
(or `0`) and `existing`, then store, add or delete as the callback answers. The new table and
`existing`. The callback here answers only the retval and the new key and value. -/
def stUpdate (fuel : ℕ) (ty : StHashType) (tab : StTable) (key : StData)
    (func : StData → StData → Bool → StRetval × StData × StData) : Option (StTable × Bool) := do
  let hash := doHash ty key
  match ← findEntryAndBin fuel ty tab hash key with
  | none =>
    match func key 0 false with
    | (.stContinue, key', value') =>
      let tab ← stAddDirectWithHash fuel tab key' value' hash
      pure (tab, false)
    | _ => pure (tab, false)
  | some (bin, binInd) =>
    let entry ← tab.entry? bin
    match func entry.key entry.record true with
    | (.stContinue, key', value') =>
      pure (tab.modifyEntry bin (fun e => { e with key := key', record := value' }), true)
    | (.stDelete, _, _) => pure (deleteEntryAt tab binInd bin, true)
    | _ => pure (tab, true)

/-! ## Traversal -/

/-- The loop of `st_general_foreach` from index `i`, `count` iterations, with the callback's
state `s`: the new table, the state, and whether the callback stopped the loop. -/
def foreachLoop {σ : Type} (fuel : ℕ) (ty : StHashType) (func : σ → StData → StData → StRetval × σ)
    (checkP : Bool) : (i count : ℕ) → StTable → σ → Option (StTable × σ × Bool)
  | _, 0, tab, s => some (tab, s, false)
  | i, count + 1, tab, s =>
    match tab.entry? i with
    | none => none
    | some curr =>
      if deletedEntryP curr then foreachLoop fuel ty func checkP (i + 1) count tab s
      else
        let hash := curr.hash
        match func s curr.key curr.record with
        | (.stContinue, s) => foreachLoop fuel ty func checkP (i + 1) count tab s
        | (.stCheck, s) =>
          if checkP then foreachLoop fuel ty func checkP (i + 1) count tab s
          else some (tab, s, true)
        | (.stStop, s) => some (tab, s, true)
        | (.stDelete, s) =>
          match findEntryAndBin fuel ty tab hash curr.key with
          | none => none
          | some none => foreachLoop fuel ty func checkP (i + 1) count tab s
          | some (some (bin, binInd)) =>
            -- the entry marked deleted is the current one; the range moves by the found one
            let tab := match binInd with
              | some b => tab.setBinAt b deletedBin
              | none => tab
            let tab := updateRangeForDeleted
              { tab.modifyEntry i markEntryDeleted with numEntries := tab.numEntries - 1 } bin
            foreachLoop fuel ty func checkP (i + 1) count tab s

/-- `st_general_foreach` (`st_foreach`, and `st_foreach_check` with `checkP`): the new table
and the callback's final state. The bound does not move, as the callback does not reach the
table. -/
def stGeneralForeach {σ : Type} (fuel : ℕ) (ty : StHashType) (tab : StTable)
    (func : σ → StData → StData → StRetval × σ) (s : σ) (checkP : Bool) : Option (StTable × σ) :=
  (foreachLoop fuel ty func checkP tab.entriesStart (tab.entriesBound - tab.entriesStart) tab s).map
    fun r => (r.1, r.2.1)

end CRuby.St
