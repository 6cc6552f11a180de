import Mathlib.Data.List.Basic
import Mathlib.Data.Nat.Bitwise

/-!
# `st.c`: the table record, its sizes and its bins

The hash table of `st.c` for an eight-byte `st_index_t` (`MAX_POWER2 = 62`). A table has
an *entries* array, kept in insertion order between `entries_start` and
`entries_bound`, and, from `2^5` entries on, a *bins* array that maps a hash to the index
of its entry by open addressing (`hash_bin` and then `secondary_hash`).

Representation choices:

* `st_data_t` is a machine word, `StData := ℕ`; the table's `type` (its `compare` and
  `hash` functions) is the parameter `ty : StHashType` of every operation instead of a
  field, since no operation changes it.
* The entries array is the list of its slots `[0, entries_bound)`: the slots above the
  bound are never read, and the list is cut back when the bound is.
* The bins array is `none` (`bins == NULL`) or the list of its `2^bin_power` values;
  `set_bin` stores a value truncated to the bin width `8 << size_ind` bits.
-/

namespace CRuby.St

/-- `st_data_t`: keys and records are machine words. -/
abbrev StData : Type := ℕ

/-- `struct st_hash_type`: `compare` answers `0` on equal keys, `hash` is the key's
`st_index_t` hash. -/
structure StHashType where
  /-- `(*type->compare)(x, y)` -/
  compare : StData → StData → ℤ
  /-- `(*type->hash)(key)` -/
  hash : StData → ℕ

/-- `struct st_table_entry`. -/
structure StTableEntry where
  /-- the stored hash, `RESERVED_HASH_VAL` once the entry is deleted -/
  hash : ℕ
  /-- the key -/
  key : StData
  /-- the record -/
  record : StData
  deriving Repr, DecidableEq

/-- `struct st_table`, without its `type` (see the module header). -/
structure StTable where
  /-- power of two of the allocated entries -/
  entryPower : ℕ
  /-- power of two of the allocated bins -/
  binPower : ℕ
  /-- bin width index: bins are `8 << sizeInd` bits wide -/
  sizeInd : ℕ
  /-- number of live entries -/
  numEntries : ℕ
  /-- index of the first entry that may be live -/
  entriesStart : ℕ
  /-- index past the last entry ever added since the last rebuild -/
  entriesBound : ℕ
  /-- the bins, `none` for a table searched linearly -/
  bins : Option (List ℕ)
  /-- the entry slots `[0, entriesBound)` -/
  entries : List StTableEntry
  /-- how many times the table was rebuilt or cleared -/
  rebuildsNum : ℕ
  deriving Repr, DecidableEq

/-! ## Constants -/

/-- `MAX_POWER2` for `SIZEOF_ST_INDEX_T == 8`. -/
def maxPower2 : ℕ := 62

/-- `MINIMAL_POWER2`. -/
def minimalPower2 : ℕ := 2

/-- `MAX_POWER2_FOR_TABLES_WITHOUT_BINS`. -/
def maxPower2ForTablesWithoutBins : ℕ := 4

/-- `REBUILD_THRESHOLD`. -/
def rebuildThreshold : ℕ := 4

/-- `EMPTY_BIN`. -/
def emptyBin : ℕ := 0

/-- `DELETED_BIN`. -/
def deletedBin : ℕ := 1

/-- `ENTRY_BASE`: bins hold entry indices shifted past the two reserved values. -/
def entryBase : ℕ := 2

/-- `RESERVED_HASH_VAL`, `~(st_hash_t) 0`: the hash of a deleted entry. -/
def reservedHashVal : ℕ := 2 ^ 64 - 1

/-- `RESERVED_HASH_SUBSTITUTION_VAL`. -/
def reservedHashSubstitutionVal : ℕ := 0

/-- `enum st_retval`, the answers of `st_foreach` and `st_update` callbacks. -/
inductive StRetval where
  | stContinue
  | stStop
  | stDelete
  | stCheck
  deriving Repr, DecidableEq

/-! ## Sizes -/

/-- `struct st_features`. -/
structure StFeatures where
  /-- power of two of the entries -/
  entryPower : ℕ
  /-- power of two of the bins -/
  binPower : ℕ
  /-- bin width index -/
  sizeInd : ℕ
  /-- size of the bins array in `st_index_t` words -/
  binsWords : ℕ
  deriving Repr, DecidableEq

/-- The `features` table for `SIZEOF_ST_INDEX_T == 8`. -/
def features : List StFeatures := [
  ⟨0, 1, 0, 0x0⟩, ⟨1, 2, 0, 0x1⟩, ⟨2, 3, 0, 0x1⟩, ⟨3, 4, 0, 0x2⟩, ⟨4, 5, 0, 0x4⟩, ⟨5, 6, 0, 0x8⟩,
  ⟨6, 7, 0, 0x10⟩, ⟨7, 8, 0, 0x20⟩, ⟨8, 9, 1, 0x80⟩, ⟨9, 10, 1, 0x100⟩, ⟨10, 11, 1, 0x200⟩,
  ⟨11, 12, 1, 0x400⟩, ⟨12, 13, 1, 0x800⟩, ⟨13, 14, 1, 0x1000⟩, ⟨14, 15, 1, 0x2000⟩,
  ⟨15, 16, 1, 0x4000⟩, ⟨16, 17, 2, 0x10000⟩, ⟨17, 18, 2, 0x20000⟩, ⟨18, 19, 2, 0x40000⟩,
  ⟨19, 20, 2, 0x80000⟩, ⟨20, 21, 2, 0x100000⟩, ⟨21, 22, 2, 0x200000⟩, ⟨22, 23, 2, 0x400000⟩,
  ⟨23, 24, 2, 0x800000⟩, ⟨24, 25, 2, 0x1000000⟩, ⟨25, 26, 2, 0x2000000⟩, ⟨26, 27, 2, 0x4000000⟩,
  ⟨27, 28, 2, 0x8000000⟩, ⟨28, 29, 2, 0x10000000⟩, ⟨29, 30, 2, 0x20000000⟩,
  ⟨30, 31, 2, 0x40000000⟩, ⟨31, 32, 2, 0x80000000⟩, ⟨32, 33, 3, 0x200000000⟩,
  ⟨33, 34, 3, 0x400000000⟩, ⟨34, 35, 3, 0x800000000⟩, ⟨35, 36, 3, 0x1000000000⟩,
  ⟨36, 37, 3, 0x2000000000⟩, ⟨37, 38, 3, 0x4000000000⟩, ⟨38, 39, 3, 0x8000000000⟩,
  ⟨39, 40, 3, 0x10000000000⟩, ⟨40, 41, 3, 0x20000000000⟩, ⟨41, 42, 3, 0x40000000000⟩,
  ⟨42, 43, 3, 0x80000000000⟩, ⟨43, 44, 3, 0x100000000000⟩, ⟨44, 45, 3, 0x200000000000⟩,
  ⟨45, 46, 3, 0x400000000000⟩, ⟨46, 47, 3, 0x800000000000⟩, ⟨47, 48, 3, 0x1000000000000⟩,
  ⟨48, 49, 3, 0x2000000000000⟩, ⟨49, 50, 3, 0x4000000000000⟩, ⟨50, 51, 3, 0x8000000000000⟩,
  ⟨51, 52, 3, 0x10000000000000⟩, ⟨52, 53, 3, 0x20000000000000⟩, ⟨53, 54, 3, 0x40000000000000⟩,
  ⟨54, 55, 3, 0x80000000000000⟩, ⟨55, 56, 3, 0x100000000000000⟩, ⟨56, 57, 3, 0x200000000000000⟩,
  ⟨57, 58, 3, 0x400000000000000⟩, ⟨58, 59, 3, 0x800000000000000⟩,
  ⟨59, 60, 3, 0x1000000000000000⟩, ⟨60, 61, 3, 0x2000000000000000⟩,
  ⟨61, 62, 3, 0x4000000000000000⟩, ⟨62, 63, 3, 0x8000000000000000⟩]

/-- `features[n]`; every caller indexes with `n ≤ MAX_POWER2`. -/
def getFeatures (n : ℕ) : StFeatures := features.getD n ⟨0, 0, 0, 0⟩

/-- The loop `for (n = 0; size != 0; n++) size >>= 1;` of `get_power2`, on a 64-bit
`st_index_t` (so it runs at most 64 times). -/
def sizeBits : (fuel size : ℕ) → ℕ
  | 0, _ => 0
  | fuel + 1, size => if size = 0 then 0 else sizeBits fuel (size >>> 1) + 1

/-- `get_power2`: the smallest `n ≥ MINIMAL_POWER2` with `2^n > size`; `none` where the
code raises `"st_table too big"`. -/
def getPower2 (size : ℕ) : Option ℕ :=
  let n := sizeBits 64 size
  if n ≤ maxPower2 then some (if n < minimalPower2 then minimalPower2 else n) else none

/-- `get_allocated_entries`. -/
def getAllocatedEntries (tab : StTable) : ℕ := 1 <<< tab.entryPower

/-- `get_bins_num`. -/
def getBinsNum (tab : StTable) : ℕ := 1 <<< tab.binPower

/-- `bins_mask`. -/
def binsMask (binPower : ℕ) : ℕ := (1 <<< binPower) - 1

/-- `hash_bin`. -/
def hashBin (hashValue binPower : ℕ) : ℕ := hashValue &&& binsMask binPower

/-- `secondary_hash`: shift `perterb` by 11, step `ind` by `5 * ind + perterb + 1` in
64-bit arithmetic and mask it; the new index and the new `perterb`. -/
def secondaryHash (ind perterb binPower : ℕ) : ℕ × ℕ :=
  let perterb := perterb >>> 11
  (hashBin (((ind <<< 2) % 2 ^ 64 + ind + perterb + 1) % 2 ^ 64) binPower, perterb)

/-- The probe sequence of a hash: the bin index and the `perterb` the search loops hold
after `i` collisions. -/
def probe (binPower hashValue : ℕ) : ℕ → ℕ × ℕ
  | 0 => (hashBin hashValue binPower, hashValue)
  | i + 1 => secondaryHash (probe binPower hashValue i).1 (probe binPower hashValue i).2 binPower

/-! ## Bins and entries -/

/-- `get_bin`. An index past the array (which the masked probes never produce) reads `0`. -/
def getBin (bins : List ℕ) (n : ℕ) : ℕ := bins.getD n 0

/-- `set_bin`: the store goes through the bin's width, `8 << s` bits. -/
def setBin (bins : List ℕ) (s n v : ℕ) : List ℕ := bins.set n (v % 2 ^ (8 <<< s))

/-- `EMPTY_BIN_P`. -/
def emptyBinP (b : ℕ) : Bool := b == emptyBin

/-- `DELETED_BIN_P`. -/
def deletedBinP (b : ℕ) : Bool := b == deletedBin

/-- `EMPTY_OR_DELETED_BIN_P`. -/
def emptyOrDeletedBinP (b : ℕ) : Bool := b ≤ deletedBin

/-- `initialize_bins`: all `2^bin_power` bins empty. -/
def initializeBins (binPower : ℕ) : List ℕ := List.replicate (1 <<< binPower) emptyBin

/-- `DELETED_ENTRY_P`. -/
def deletedEntryP (e : StTableEntry) : Bool := e.hash == reservedHashVal

/-- `MARK_ENTRY_DELETED`. -/
def markEntryDeleted (e : StTableEntry) : StTableEntry := { e with hash := reservedHashVal }

/-- `do_hash`: the type's hash as an `st_hash_t`, moved off the reserved value. -/
def doHash (ty : StHashType) (key : StData) : ℕ :=
  let hash := ty.hash key % 2 ^ 64
  if hash = reservedHashVal then reservedHashSubstitutionVal else hash

/-- `EQUAL(tab, x, y)`. -/
def stEqual (ty : StHashType) (x y : StData) : Bool := x == y || ty.compare x y == 0

/-- `PTR_EQUAL(tab, ptr, hash_val, key)`. -/
def ptrEqual (ty : StHashType) (e : StTableEntry) (hashVal : ℕ) (key : StData) : Bool :=
  e.hash == hashVal && stEqual ty key e.key

/-- The entry at index `i` of the entries array, if the array has it. -/
def StTable.entry? (tab : StTable) (i : ℕ) : Option StTableEntry := tab.entries[i]?

/-- `make_tab_empty`. -/
def makeTabEmpty (tab : StTable) : StTable :=
  { tab with numEntries := 0, entriesStart := 0, entriesBound := 0, entries := [],
             bins := tab.bins.map fun _ => initializeBins tab.binPower }

/-! ## Numeric keys -/

/-- `st_numcmp`: `x != y`. -/
def stNumcmp (x y : StData) : ℤ := if x ≠ y then 1 else 0

/-- `st_numhash`: `(n >> 11 | n << 3) ^ (n >> 3)` on a 64-bit word. -/
def stNumhash (n : StData) : ℕ := ((n >>> 11) ||| ((n <<< 3) % 2 ^ 64)) ^^^ (n >>> 3)

/-- `st_hashtype_num`, the type of tables keyed by machine words. -/
def stHashtypeNum : StHashType := ⟨stNumcmp, stNumhash⟩

/-! ## Small facts -/

theorem entryBase_eq : entryBase = 2 := rfl

@[simp] theorem hashBin_eq (h p : ℕ) : hashBin h p = h % 2 ^ p := by
  rw [hashBin, binsMask, Nat.one_shiftLeft, Nat.and_two_pow_sub_one_eq_mod]

theorem hashBin_lt (h p : ℕ) : hashBin h p < 2 ^ p := by
  rw [hashBin_eq]
  exact Nat.mod_lt _ (Nat.two_pow_pos p)

/-- Every probe lands in the bins array. -/
theorem probe_fst_lt (p h i : ℕ) : (probe p h i).1 < 2 ^ p := by
  cases i with
  | zero => exact hashBin_lt h p
  | succ i => exact hashBin_lt _ p

@[simp] theorem probe_succ (p h i : ℕ) :
    probe p h (i + 1) = secondaryHash (probe p h i).1 (probe p h i).2 p := rfl

@[simp] theorem length_initializeBins (p : ℕ) : (initializeBins p).length = 2 ^ p := by
  simp [initializeBins, Nat.one_shiftLeft]

theorem getBin_initializeBins (p n : ℕ) : getBin (initializeBins p) n = emptyBin := by
  simp only [getBin, initializeBins, List.getD_eq_getElem?_getD, List.getElem?_replicate]
  split <;> rfl

@[simp] theorem length_setBin (bins : List ℕ) (s n v : ℕ) :
    (setBin bins s n v).length = bins.length := by
  simp [setBin]

theorem getBin_setBin_self {bins : List ℕ} {n : ℕ} (hn : n < bins.length) (s v : ℕ) :
    getBin (setBin bins s n v) n = v % 2 ^ (8 <<< s) := by
  simp [getBin, setBin, hn]

theorem getBin_setBin_ne (bins : List ℕ) {n m : ℕ} (h : m ≠ n) (s v : ℕ) :
    getBin (setBin bins s n v) m = getBin bins m := by
  simp [getBin, setBin, List.getElem?_set_ne (Ne.symm h)]

@[simp] theorem deletedEntryP_markEntryDeleted (e : StTableEntry) :
    deletedEntryP (markEntryDeleted e) = true := by
  simp [deletedEntryP, markEntryDeleted]

/-- `do_hash` never answers the reserved value, so a hashed key is never a deleted entry's
hash. -/
theorem doHash_ne_reserved (ty : StHashType) (key : StData) : doHash ty key ≠ reservedHashVal := by
  simp only [doHash]
  split
  · decide
  · assumption

/-- `EQUAL` holds between a key and itself whatever `compare` does. -/
@[simp] theorem stEqual_self (ty : StHashType) (x : StData) : stEqual ty x x = true := by
  simp [stEqual]

end CRuby.St
