import CRuby.St.Table
import CRuby.Lib.Probing

/-!
# `st.c`: the search loops

`find_entry` scans the entries linearly. The four bin searches are `for (;;)` loops along the
probe sequence of a hash (`hash_bin`, then `secondary_hash` after each collision); they stop
only at an empty bin or at a bin that answers, so each is a `Probing.walk` with an explicit
`fuel`: `none` is a loop that has not left within the fuel (or read an entry outside the
array, which a table built by these operations never does).

* `findBinLoop` is the loop shared by `find_table_entry_ind` and `find_table_bin_ind`, which
  differ only in what they return.
* `find_table_bin_ind_direct` stops at the first empty or deleted bin.
* `find_table_bin_ptr_and_reserve` also remembers the first deleted bin it crossed and, on
  reaching an empty bin, reserves that deleted bin instead.
-/

namespace CRuby.St

open Probing

/-- One `secondary_hash` step of the loop state `(ind, perterb)`. -/
def probeStep (binPower : ℕ) (s : ℕ × ℕ) : ℕ × ℕ := secondaryHash s.1 s.2 binPower

/-- The loop state after `m` collisions is the `m`-th probe. -/
theorem probeStep_iterate (p h m : ℕ) : (probeStep p)^[m] (probe p h 0) = probe p h m := by
  induction m with
  | zero => rfl
  | succ m ih => rw [Function.iterate_succ_apply', ih]; rfl

/-! ## `find_entry` -/

/-- `find_entry`: the first index of `[entries_start, entries_bound)` whose entry matches.
A slot missing from the list (never, on a table built by these operations) does not match. -/
def findEntry (ty : StHashType) (tab : StTable) (hashValue : ℕ) (key : StData) : Option ℕ :=
  (List.range' tab.entriesStart (tab.entriesBound - tab.entriesStart)).find? fun i =>
    match tab.entries[i]? with
    | some e => ptrEqual ty e hashValue key
    | none => false

/-! ## `find_table_entry_ind` and `find_table_bin_ind` -/

/-- The look of the shared loop at bin `ind`: an empty bin ends the search, a deleted bin or
a live bin whose entry does not match goes on, a matching entry answers `(ind, bin)`. -/
def findBinLook (ty : StHashType) (tab : StTable) (bins : List ℕ) (hashValue : ℕ)
    (key : StData) (s : ℕ × ℕ) : Look (Option (ℕ × ℕ)) :=
  let bin := getBin bins s.1
  if emptyOrDeletedBinP bin then
    if emptyBinP bin then .found none else .next
  else
    match tab.entries[bin - entryBase]? with
    | none => .stuck
    | some e => if ptrEqual ty e hashValue key then .found (some (s.1, bin)) else .next

/-- The probing loop of `find_table_entry_ind` and `find_table_bin_ind`. -/
def findBinLoop (fuel : ℕ) (ty : StHashType) (tab : StTable) (bins : List ℕ) (hashValue : ℕ)
    (key : StData) : Option (Option (ℕ × ℕ)) :=
  walk (probeStep tab.binPower) (findBinLook ty tab bins hashValue key) fuel
    (probe tab.binPower hashValue 0)

/-- `find_table_entry_ind`: the matching bin's value (`ENTRY_BASE` plus the entry index), or
`none` for `UNDEFINED_ENTRY_IND`. -/
def findTableEntryInd (fuel : ℕ) (ty : StHashType) (tab : StTable) (bins : List ℕ)
    (hashValue : ℕ) (key : StData) : Option (Option ℕ) :=
  (findBinLoop fuel ty tab bins hashValue key).map (Option.map Prod.snd)

/-- `find_table_bin_ind`: the matching bin's index, or `none` for `UNDEFINED_BIN_IND`. -/
def findTableBinInd (fuel : ℕ) (ty : StHashType) (tab : StTable) (bins : List ℕ)
    (hashValue : ℕ) (key : StData) : Option (Option ℕ) :=
  (findBinLoop fuel ty tab bins hashValue key).map (Option.map Prod.fst)

/-! ## `find_table_bin_ind_direct` -/

/-- The look of `find_table_bin_ind_direct`: the first empty or deleted bin answers. -/
def directLook (bins : List ℕ) (s : ℕ × ℕ) : Look ℕ :=
  if emptyOrDeletedBinP (getBin bins s.1) then .found s.1 else .next

/-- `find_table_bin_ind_direct`: the first empty or deleted bin on the probe sequence. -/
def findTableBinIndDirect (fuel : ℕ) (binPower : ℕ) (bins : List ℕ) (hashValue : ℕ) :
    Option ℕ :=
  walk (probeStep binPower) (directLook bins) fuel (probe binPower hashValue 0)

/-! ## `find_table_bin_ptr_and_reserve` -/

/-- One step of the reserving loop: `secondary_hash`, remembering the current bin if it is
the first deleted one. -/
def reserveStep (binPower : ℕ) (bins : List ℕ) (s : ℕ × ℕ × Option ℕ) : ℕ × ℕ × Option ℕ :=
  let next := secondaryHash s.1 s.2.1 binPower
  (next.1, next.2,
    if s.2.2.isNone && deletedBinP (getBin bins s.1) then some s.1 else s.2.2)

/-- The look of the reserving loop: an empty bin answers "absent" with the first deleted bin
crossed (if any) and this bin; a live bin whose entry matches answers its value and index. -/
def reserveLook (ty : StHashType) (tab : StTable) (bins : List ℕ) (hashValue : ℕ) (key : StData)
    (s : ℕ × ℕ × Option ℕ) : Look (Option ℕ × Option ℕ × ℕ) :=
  let entryIndex := getBin bins s.1
  if emptyBinP entryIndex then .found (none, s.2.2, s.1)
  else if !deletedBinP entryIndex then
    match tab.entries[entryIndex - entryBase]? with
    | none => .stuck
    | some e =>
      if ptrEqual ty e hashValue key then .found (some entryIndex, none, s.1) else .next
  else .next

/-- `find_table_bin_ptr_and_reserve`: the matching bin's value and index, or, for an absent
key, `none` and the bin reserved for it, the first deleted bin crossed if there was one (it
is marked empty again) and else the empty bin that ended the search; an absent key is
counted in `num_entries` at once. The new table, the entry value and the bin index. -/
def findTableBinPtrAndReserve (fuel : ℕ) (ty : StHashType) (tab : StTable) (bins : List ℕ)
    (hashValue : ℕ) (key : StData) : Option (StTable × Option ℕ × ℕ) :=
  let start := probe tab.binPower hashValue 0
  match walk (reserveStep tab.binPower bins) (reserveLook ty tab bins hashValue key) fuel
      (start.1, start.2, none) with
  | none => none
  | some (some entryIndex, _, ind) => some (tab, some entryIndex, ind)
  | some (none, some firstDeleted, _) =>
    some ({ tab with numEntries := tab.numEntries + 1,
                     bins := some (setBin bins tab.sizeInd firstDeleted emptyBin) },
      none, firstDeleted)
  | some (none, none, ind) => some ({ tab with numEntries := tab.numEntries + 1 }, none, ind)

/-- The reserving loop's `(ind, perterb)` follows the probe sequence. -/
theorem reserveStep_iterate (p h : ℕ) (bins : List ℕ) (m : ℕ) :
    (((reserveStep p bins)^[m] ((probe p h 0).1, (probe p h 0).2, none)).1,
      ((reserveStep p bins)^[m] ((probe p h 0).1, (probe p h 0).2, none)).2.1) =
      probe p h m := by
  induction m with
  | zero => rfl
  | succ m ih =>
    rw [Function.iterate_succ_apply', probe_succ, ← ih]
    rfl

end CRuby.St
