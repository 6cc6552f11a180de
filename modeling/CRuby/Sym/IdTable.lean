import Mathlib.Data.List.Basic
import CRuby.Lib.BitFields

/-!
# `id_table.c`: the ID table

An `rb_id_table` maps ID serials to values by open addressing with quadratic probing: the probe
of a key starts at `key & (capa - 1)` and steps by `1, 2, 3, …`. A slot passed over while
inserting gets its `collision` mark, and a lookup goes on past a slot only while it is marked,
so deleting a marked entry leaves a tombstone: the key is cleared, the mark stays. `num` counts
the keys set, `used` the slots that are not wholly empty (keys set and tombstones).
`hash_table_extend` rebuilds the table before an insertion once `used + used / 2 ≥ capa`, sized
from `num`, and from `used` when that would shrink it.

The items are a list of `capa` records in the layout of a 64-bit build (`SIZEOF_VALUE == 8`: the
key and a separate `collision` field). The probing loops have an explicit `fuel`, `none` when it
runs out. An ID is given by its serial (`id2key`), a non-zero key.

* `Inv`: `capa` is the length of the items, `num` and `used` count what they say; every
  operation keeps it (`Inv.insert`, `Inv.delete`), and so does every run (`Inv.runOps`).
* `round_capa c` is the least power of two times four above `c` (`roundCapa_eq`), so the
  fallback of the rebuild at least doubles a table of such a capacity (`hashTableExtend_capa`).
* Without deletions the capacity stays within `round_capa(N + N / 2)` of the peak size `N`
  (`capa_le_of_inserts`); with deletions of collided entries it does not: a churn with never
  more than two live keys takes a table of capacity 8 to 16 (`churn_grows_capa`).
-/

namespace CRuby.Sym

/-! ## The table -/

/-- `item_t` of a 64-bit build: the key serial (`0` when unset), the collision mark and the
value. -/
structure Item where
  key : ℕ
  collision : Bool
  val : ℕ
deriving DecidableEq, Repr

/-- A zeroed item, as `ZALLOC_N` and `MEMZERO` leave it. -/
def emptyItem : Item := ⟨0, false, 0⟩

/-- `struct rb_id_table`. -/
structure IdTable where
  capa : ℕ
  num : ℕ
  used : ℕ
  items : List Item
deriving DecidableEq, Repr

/-- `items[i]`. -/
def IdTable.item (tbl : IdTable) (i : ℕ) : Item := tbl.items.getD i emptyItem

/-- `round_capa`: `capa >> 2` with every bit below its top bit set, plus one, times four. -/
def roundCapa (capa : ℕ) : ℕ :=
  let capa := capa >>> 2
  let capa := capa ||| capa >>> 1
  let capa := capa ||| capa >>> 2
  let capa := capa ||| capa >>> 4
  let capa := capa ||| capa >>> 8
  let capa := capa ||| capa >>> 16
  (capa + 1) <<< 2

/-- `rb_id_table_init`: a positive capacity is rounded and its items zeroed. -/
def rbIdTableInit (capa : ℕ) : IdTable :=
  if 0 < capa then
    let capa := roundCapa capa
    ⟨capa, 0, 0, List.replicate capa emptyItem⟩
  else ⟨0, 0, 0, []⟩

/-- `rb_id_table_create`. -/
def rbIdTableCreate (capa : ℕ) : IdTable := rbIdTableInit capa

/-! ## Probing -/

/-- The `while` of `hash_table_index` from slot `ix` with step `d`: found at a slot holding the
key, absent (`-1`) at a slot without the collision mark. -/
def indexLoop (tbl : IdTable) (key mask : ℕ) : ℕ → ℕ → ℕ → Option (Option ℕ)
  | 0, _, _ => none
  | fuel + 1, ix, d =>
    if key = (tbl.item ix).key then some (some ix)
    else if !(tbl.item ix).collision then some none
    else indexLoop tbl key mask fuel ((ix + d) &&& mask) (d + 1)

/-- `hash_table_index`: the slot of `key`, `none` for `-1`. -/
def hashTableIndex (fuel : ℕ) (tbl : IdTable) (key : ℕ) : Option (Option ℕ) :=
  if 0 < tbl.capa then indexLoop tbl key (tbl.capa - 1) fuel (key &&& (tbl.capa - 1)) 1
  else some none

/-- The `while` of `hash_table_raw_insert`: every slot with a key set is marked collided and
passed. The items and the first slot without a key. -/
def rawInsertLoop (mask : ℕ) : ℕ → List Item → ℕ → ℕ → Option (List Item × ℕ)
  | 0, _, _, _ => none
  | fuel + 1, items, ix, d =>
    if (items.getD ix emptyItem).key ≠ 0 then
      rawInsertLoop mask fuel (items.set ix { items.getD ix emptyItem with collision := true })
        ((ix + d) &&& mask) (d + 1)
    else some (items, ix)

/-- `hash_table_raw_insert`: the key goes to the first slot without a key along its probe;
`used` grows unless that slot is a tombstone. -/
def hashTableRawInsert (fuel : ℕ) (tbl : IdTable) (key val : ℕ) : Option IdTable := do
  let mask := tbl.capa - 1
  let (items, ix) ← rawInsertLoop mask fuel tbl.items (key &&& mask) 1
  let it := items.getD ix emptyItem
  pure ⟨tbl.capa, tbl.num + 1, if it.collision then tbl.used else tbl.used + 1,
    items.set ix { it with key := key, val := val }⟩

/-- `hash_delete_index`: a found slot loses its key and value, keeping its mark; `used` drops
unless the slot is marked. `false` for `-1`. -/
def hashDeleteIndex (tbl : IdTable) : Option ℕ → Bool × IdTable
  | none => (false, tbl)
  | some ix =>
    let it := tbl.item ix
    (true, ⟨tbl.capa, tbl.num - 1, if it.collision then tbl.used else tbl.used - 1,
      tbl.items.set ix { it with key := 0, val := 0 }⟩)

/-- The copy loop of `hash_table_extend`: every key set is inserted into the new table, in slot
order. -/
def reinsert (fuel : ℕ) (tmp : IdTable) (items : List Item) : Option IdTable :=
  items.foldlM (fun t it => if it.key ≠ 0 then hashTableRawInsert fuel t it.key it.val else some t)
    tmp

/-- `hash_table_extend`: once `used + used / 2 ≥ capa`, a new table sized by
`round_capa(num + num / 2)`, or by `round_capa(used + used / 2)` when that would be smaller than
`capa`, with the keys set reinserted. -/
def hashTableExtend (fuel : ℕ) (tbl : IdTable) : Option IdTable :=
  if tbl.capa ≤ tbl.used + (tbl.used >>> 1) then
    let newCap := roundCapa (tbl.num + (tbl.num >>> 1))
    let newCap := if newCap < tbl.capa then roundCapa (tbl.used + (tbl.used >>> 1)) else newCap
    reinsert fuel ⟨newCap, 0, 0, List.replicate newCap emptyItem⟩ tbl.items
  else some tbl

/-- `rb_id_table_insert_key`: a key present gets the new value in place; otherwise the table is
extended if needed and the key inserted. -/
def rbIdTableInsertKey (fuel : ℕ) (tbl : IdTable) (key val : ℕ) : Option IdTable := do
  match ← hashTableIndex fuel tbl key with
  | some ix => pure { tbl with items := tbl.items.set ix { tbl.item ix with val := val } }
  | none =>
    let tbl ← hashTableExtend fuel tbl
    hashTableRawInsert fuel tbl key val

/-- `rb_id_table_delete`: `true` when the key was there. -/
def rbIdTableDelete (fuel : ℕ) (tbl : IdTable) (key : ℕ) : Option (Bool × IdTable) :=
  (hashTableIndex fuel tbl key).map (hashDeleteIndex tbl)

/-- `rb_id_table_lookup`: the value of `key`, if present. -/
def rbIdTableLookup (fuel : ℕ) (tbl : IdTable) (key : ℕ) : Option (Option ℕ) :=
  (hashTableIndex fuel tbl key).map (Option.map fun ix => (tbl.item ix).val)

/-! ## Runs -/

/-- An insertion or a deletion, by key serial. -/
inductive IdOp where
  | insert (key val : ℕ)
  | delete (key : ℕ)
deriving DecidableEq, Repr

/-- The key an operation names. -/
def IdOp.key : IdOp → ℕ
  | .insert key _ => key
  | .delete key => key

/-- One operation on the table. -/
def IdOp.run (fuel : ℕ) (tbl : IdTable) : IdOp → Option IdTable
  | .insert key val => rbIdTableInsertKey fuel tbl key val
  | .delete key => (rbIdTableDelete fuel tbl key).map Prod.snd

/-- The tables after each operation of `ops`. -/
def runOps (fuel : ℕ) (tbl : IdTable) : List IdOp → Option (List IdTable)
  | [] => some []
  | op :: ops => do
    let t ← op.run fuel tbl
    let ts ← runOps fuel t ops
    pure (t :: ts)

theorem runOps_cons_eq_some {fuel : ℕ} {tbl : IdTable} {op : IdOp} {ops : List IdOp}
    {ts : List IdTable} :
    runOps fuel tbl (op :: ops) = some ts ↔
      ∃ t ts', op.run fuel tbl = some t ∧ runOps fuel t ops = some ts' ∧ ts = t :: ts' := by
  simp only [runOps, Option.bind_eq_bind, Option.bind_eq_some_iff, Option.pure_def,
    Option.some.injEq]
  constructor
  · rintro ⟨t, ht, ts', hts', rfl⟩
    exact ⟨t, ts', ht, hts', rfl⟩
  · rintro ⟨t, ts', ht, hts', rfl⟩
    exact ⟨t, ht, ts', hts', rfl⟩

/-! ## `round_capa` -/

/-- `round_capa c` is the least power of two times four above `c`, for `c` of an `int`: the
cascade of shifts smears the top bit of `c >> 2` down. -/
theorem roundCapa_eq {c : ℕ} (hc : c < 2 ^ 34) : roundCapa c = 4 * 2 ^ (c / 4).size := by
  have hq : c >>> 2 = c / 4 := by rw [Nat.shiftRight_eq_div_pow]
  have hm : c >>> 2 < 2 ^ 32 := by rw [hq]; omega
  have h5 := (((((BitFields.smearedBits_zero (c >>> 2)).step (k := 1) rfl).step (k := 2) rfl).step
    (k := 4) rfl).step (k := 8) rfl).step (k := 16) rfl
  unfold roundCapa
  dsimp only
  rw [h5.eq hm, Nat.sub_add_cancel Nat.one_le_two_pow, Nat.shiftLeft_eq, hq]
  omega

theorem four_le_roundCapa (c : ℕ) : 4 ≤ roundCapa c := by
  unfold roundCapa
  dsimp only
  rw [Nat.shiftLeft_eq]
  omega

theorem roundCapa_pos (c : ℕ) : 0 < roundCapa c :=
  lt_of_lt_of_le (by decide) (four_le_roundCapa c)

theorem lt_roundCapa {c : ℕ} (hc : c < 2 ^ 34) : c < roundCapa c := by
  rw [roundCapa_eq hc]
  have := Nat.lt_size_self (c / 4)
  omega

theorem roundCapa_mono {a b : ℕ} (hab : a ≤ b) (hb : b < 2 ^ 34) : roundCapa a ≤ roundCapa b := by
  rw [roundCapa_eq (by omega), roundCapa_eq hb]
  have hsize : (a / 4).size ≤ (b / 4).size :=
    Nat.size_le.mpr (lt_of_le_of_lt (Nat.div_le_div_right hab) (Nat.lt_size_self _))
  have := Nat.pow_le_pow_right Nat.two_pos hsize
  omega

/-- From a capacity `4 * 2 ^ j` on, `round_capa` gives at least twice it. -/
theorem two_mul_le_roundCapa {c j : ℕ} (hj : 4 * 2 ^ j ≤ c) (hc : c < 2 ^ 34) :
    2 * (4 * 2 ^ j) ≤ roundCapa c := by
  rw [roundCapa_eq hc]
  have hsize : j + 1 ≤ (c / 4).size := Nat.lt_size.mpr (by omega)
  have := Nat.pow_le_pow_right Nat.two_pos hsize
  rw [pow_succ] at this
  omega

/-! ## Counting the slots -/

/-- Writing `a` over slot `i` changes a count by what `a` and the old slot contribute. -/
theorem countP_set_add {α : Type} {p : α → Bool} {l : List α} {i : ℕ} (hi : i < l.length)
    (d a : α) :
    (l.set i a).countP p + (if p (l.getD i d) then 1 else 0) =
      l.countP p + (if p a then 1 else 0) := by
  rw [List.countP_set hi, List.getD_eq_getElem?_getD, List.getElem?_eq_getElem hi,
    Option.getD_some]
  generalize (if p a = true then 1 else 0) = k
  by_cases h : p l[i] = true
  · have hpos : 0 < l.countP p := List.countP_pos_iff.mpr ⟨l[i], List.getElem_mem hi, h⟩
    rw [if_pos h]
    omega
  · rw [if_neg h]
    omega

/-- Overwriting a slot with an item counted alike keeps the count. -/
theorem countP_set_eq {α : Type} {p : α → Bool} {l : List α} {i : ℕ} (hi : i < l.length) {d a : α}
    (h : p a = p (l.getD i d)) : (l.set i a).countP p = l.countP p := by
  have hc := countP_set_add (p := p) hi d a
  rw [h] at hc
  omega

/-- Overwriting an uncounted slot with a counted item adds one. -/
theorem countP_set_of_false {α : Type} {p : α → Bool} {l : List α} {i : ℕ} (hi : i < l.length)
    {d a : α} (h0 : p (l.getD i d) = false) (h1 : p a = true) :
    (l.set i a).countP p = l.countP p + 1 := by
  have hc := countP_set_add (p := p) hi d a
  rw [h0, h1, if_pos rfl, if_neg Bool.false_ne_true] at hc
  omega

/-- Overwriting a counted slot with an uncounted item takes one away. -/
theorem countP_set_of_true {α : Type} {p : α → Bool} {l : List α} {i : ℕ} (hi : i < l.length)
    {d a : α} (h0 : p (l.getD i d) = true) (h1 : p a = false) :
    (l.set i a).countP p + 1 = l.countP p := by
  have hc := countP_set_add (p := p) hi d a
  rw [h0, h1, if_pos rfl, if_neg Bool.false_ne_true] at hc
  omega

/-- A slot with a key set. -/
def Item.isSet (it : Item) : Bool := it.key != 0

/-- A slot that is not wholly empty: a key set, or a tombstone's mark. -/
def Item.inUse (it : Item) : Bool := it.key != 0 || it.collision

/-- No slot is a tombstone: a slot without a key has no mark. -/
def NoTombstones (items : List Item) : Prop := ∀ it ∈ items, it.key = 0 → it.collision = false

theorem Item.isSet_eq_true {it : Item} (h : it.key ≠ 0) : it.isSet = true := by
  simp [Item.isSet, h]

theorem Item.isSet_eq_false {it : Item} (h : it.key = 0) : it.isSet = false := by
  simp [Item.isSet, h]

theorem Item.inUse_eq_true {it : Item} (h : it.key ≠ 0) : it.inUse = true := by
  simp [Item.inUse, h]

theorem Item.inUse_eq_collision {it : Item} (h : it.key = 0) : it.inUse = it.collision := by
  simp [Item.inUse, h]

theorem getD_mem {α : Type} {l : List α} {i : ℕ} (hi : i < l.length) (d : α) : l.getD i d ∈ l := by
  rw [List.getD_eq_getElem?_getD, List.getElem?_eq_getElem hi, Option.getD_some]
  exact List.getElem_mem hi

/-- The representation invariant: `capa` items, `num` of them with a key, `used` of them not
wholly empty. -/
structure Inv (tbl : IdTable) : Prop where
  length_items : tbl.items.length = tbl.capa
  num_eq : tbl.num = tbl.items.countP Item.isSet
  used_eq : tbl.used = tbl.items.countP Item.inUse

theorem IdTable.item_eq_empty {tbl : IdTable} {i : ℕ} (h : tbl.items.length ≤ i) :
    tbl.item i = emptyItem := by
  rw [IdTable.item, List.getD_eq_getElem?_getD, List.getElem?_eq_none h, Option.getD_none]

theorem IdTable.lt_length_of_key_ne {tbl : IdTable} {i : ℕ} (h : (tbl.item i).key ≠ 0) :
    i < tbl.items.length := by
  by_contra hge
  rw [IdTable.item_eq_empty (by omega)] at h
  exact h rfl

theorem noTombstones_set {items : List Item} {i : ℕ} {a : Item} (h : NoTombstones items)
    (ha : a.key = 0 → a.collision = false) : NoTombstones (items.set i a) := by
  intro it hit
  rcases List.mem_or_eq_of_mem_set hit with hit | rfl
  · exact h it hit
  · exact ha

/-! ## The loops -/

section Loops

variable {tbl : IdTable} {key mask : ℕ}

/-- `hash_table_index` answers a slot holding the key. -/
theorem indexLoop_eq_some_some :
    ∀ {fuel ix d i}, indexLoop tbl key mask fuel ix d = some (some i) → (tbl.item i).key = key := by
  intro fuel
  induction fuel with
  | zero => intro ix d i h; cases h
  | succ fuel ih =>
    intro ix d i h
    rw [indexLoop] at h
    split_ifs at h with hkey
    · cases h
      exact hkey.symm
    · cases h
    · exact ih h

theorem hashTableIndex_eq_some_some {fuel i : ℕ} (h : hashTableIndex fuel tbl key = some (some i)) :
    (tbl.item i).key = key := by
  unfold hashTableIndex at h
  split_ifs at h
  · exact indexLoop_eq_some_some h
  · cases h

/-- **The insertion probe** passes slots with a key, marking them collided, which changes no
count and makes no tombstone, and stops at a slot without a key within the mask. -/
theorem rawInsertLoop_spec :
    ∀ {fuel items ix d items' ix'}, mask < items.length → ix ≤ mask →
      rawInsertLoop mask fuel items ix d = some (items', ix') →
      items'.length = items.length ∧ items'.countP Item.isSet = items.countP Item.isSet ∧
        items'.countP Item.inUse = items.countP Item.inUse ∧ ix' ≤ mask ∧
        (items'.getD ix' emptyItem).key = 0 ∧ (NoTombstones items → NoTombstones items') := by
  intro fuel
  induction fuel with
  | zero => intro items ix d items' ix' _ _ h; cases h
  | succ fuel ih =>
    intro items ix d items' ix' hmask hix h
    rw [rawInsertLoop] at h
    split_ifs at h with hset
    · -- a key is set here: mark the slot and go on
      have hlt : ix < items.length := by omega
      obtain ⟨hlen, hnum, hused, hix', hkey, hno⟩ :=
        ih (by rw [List.length_set]; exact hmask) (Nat.and_le_right) h
      have hnum' := countP_set_eq (p := Item.isSet) hlt
        (a := { items.getD ix emptyItem with collision := true }) rfl
      have hused' := countP_set_eq (p := Item.inUse) hlt
        (a := { items.getD ix emptyItem with collision := true })
        (by rw [Item.inUse_eq_true hset]; simp only [Item.inUse, Bool.or_true])
      refine ⟨by rw [hlen, List.length_set], by rw [hnum, hnum'], by rw [hused, hused'], hix', hkey,
        fun hno0 => hno (noTombstones_set hno0 fun h0 => absurd h0 hset)⟩
    · cases h
      exact ⟨rfl, rfl, rfl, hix, not_not.mp hset, id⟩

end Loops

/-! ## Every operation keeps the invariant -/

section Keep

variable {fuel : ℕ} {tbl t : IdTable} {key val : ℕ}

/-- **`hash_table_raw_insert`** counts the key in `num`, and in `used` unless it lands on a
tombstone. -/
theorem Inv.rawInsert (h : Inv tbl) (hcapa : 0 < tbl.capa) (hkey : key ≠ 0)
    (hr : hashTableRawInsert fuel tbl key val = some t) :
    Inv t ∧ t.capa = tbl.capa ∧ (NoTombstones tbl.items → NoTombstones t.items) := by
  unfold hashTableRawInsert at hr
  dsimp only at hr
  rcases hl : rawInsertLoop (tbl.capa - 1) fuel tbl.items (key &&& (tbl.capa - 1)) 1 with
    _ | ⟨items, ix⟩
  · rw [hl] at hr; cases hr
  rw [hl] at hr
  simp only [Option.bind_eq_bind, Option.bind_some, Option.pure_def, Option.some.injEq] at hr
  subst hr
  obtain ⟨hlen, hnum, hused, hix, hempty, hno⟩ :=
    rawInsertLoop_spec (by rw [h.length_items]; omega) Nat.and_le_right hl
  have hlt : ix < items.length := by rw [hlen, h.length_items]; omega
  have hnum' := countP_set_of_false (p := Item.isSet) hlt
    (a := { items.getD ix emptyItem with key := key, val := val })
    (Item.isSet_eq_false hempty) (Item.isSet_eq_true hkey)
  refine ⟨⟨by rw [List.length_set, hlen, h.length_items], by rw [hnum', hnum, h.num_eq], ?_⟩, rfl,
    fun hno0 => noTombstones_set (hno hno0) fun h0 => absurd h0 hkey⟩
  -- the slot was counted in `used` exactly when it was a tombstone
  dsimp only
  rw [h.used_eq, ← hused]
  cases hc : (items.getD ix emptyItem).collision
  · rw [if_neg Bool.false_ne_true]
    exact (countP_set_of_false hlt (by rw [Item.inUse_eq_collision hempty, hc])
      (Item.inUse_eq_true hkey)).symm
  · rw [if_pos rfl]
    exact (countP_set_eq hlt (by rw [Item.inUse_eq_true hkey, Item.inUse_eq_collision hempty, hc])).symm

/-- **`hash_delete_index`** of a found key drops it from `num`, and from `used` unless the
slot keeps a collision mark. -/
theorem Inv.delete (h : Inv tbl) (hkey : key ≠ 0) {b : Bool}
    (hd : rbIdTableDelete fuel tbl key = some (b, t)) : Inv t ∧ t.capa = tbl.capa := by
  unfold rbIdTableDelete at hd
  rcases hi : hashTableIndex fuel tbl key with _ | _ | i
  · rw [hi] at hd; cases hd
  · rw [hi] at hd
    cases hd
    exact ⟨h, rfl⟩
  rw [hi] at hd
  simp only [Option.map_some, hashDeleteIndex, Option.some.injEq, Prod.mk.injEq] at hd
  obtain ⟨-, rfl⟩ := hd
  have hfound := hashTableIndex_eq_some_some hi
  have hkey' : (tbl.item i).key ≠ 0 := by rw [hfound]; exact hkey
  have hlt := IdTable.lt_length_of_key_ne hkey'
  have hnum' := countP_set_of_true (p := Item.isSet) hlt (d := emptyItem)
    (a := { tbl.item i with key := 0, val := 0 }) (Item.isSet_eq_true hkey') (Item.isSet_eq_false rfl)
  dsimp only at hnum'
  refine ⟨⟨by dsimp only; rw [List.length_set, h.length_items], by dsimp only; rw [h.num_eq]; omega,
    ?_⟩, rfl⟩
  -- the slot stays counted in `used` exactly when it keeps its mark
  dsimp only
  rw [h.used_eq]
  cases hc : (tbl.item i).collision
  · rw [if_neg Bool.false_ne_true]
    have hused' := countP_set_of_true (p := Item.inUse) hlt (d := emptyItem) (a := ⟨0, false, 0⟩)
      (Item.inUse_eq_true hkey') rfl
    omega
  · rw [if_pos rfl]
    exact (countP_set_eq (p := Item.inUse) hlt (d := emptyItem) (a := ⟨0, true, 0⟩)
      (by rw [IdTable.item] at hkey'; rw [Item.inUse_eq_true hkey']; rfl)).symm

/-- The copy loop of `hash_table_extend` keeps the invariant of the new table. -/
theorem Inv.reinsert :
    ∀ (items : List Item) {tmp t : IdTable}, Inv tmp → 0 < tmp.capa →
      reinsert fuel tmp items = some t →
      Inv t ∧ t.capa = tmp.capa ∧ (NoTombstones tmp.items → NoTombstones t.items) := by
  intro items
  induction items with
  | nil => intro tmp t h _ hr; cases hr; exact ⟨h, rfl, id⟩
  | cons it items ih =>
    intro tmp t h hcapa hr
    unfold CRuby.Sym.reinsert at hr
    rw [List.foldlM_cons] at hr
    split_ifs at hr with hset
    · -- a key set: inserted into the new table
      rcases hins : hashTableRawInsert fuel tmp it.key it.val with _ | t1
      · rw [hins] at hr; cases hr
      rw [hins, Option.bind_eq_bind, Option.bind_some] at hr
      obtain ⟨h1, hc1, hno1⟩ := h.rawInsert hcapa hset hins
      obtain ⟨h2, hc2, hno2⟩ := ih h1 (by omega) hr
      exact ⟨h2, hc2.trans hc1, fun hno => hno2 (hno1 hno)⟩
    · rw [Option.bind_eq_bind, Option.bind_some] at hr
      exact ih h hcapa hr

theorem inv_emptyTable (c : ℕ) : Inv ⟨c, 0, 0, List.replicate c emptyItem⟩ :=
  ⟨List.length_replicate, by simp [List.countP_replicate, Item.isSet, emptyItem],
    by simp [List.countP_replicate, Item.inUse, emptyItem]⟩

theorem noTombstones_replicate (c : ℕ) : NoTombstones (List.replicate c emptyItem) := by
  intro it hit _
  rw [List.eq_of_mem_replicate hit]
  rfl

/-- The capacity `hash_table_extend` leaves. -/
theorem hashTableExtend_capa_eq (he : hashTableExtend fuel tbl = some t) :
    t.capa = if tbl.capa ≤ tbl.used + (tbl.used >>> 1) then
      (if roundCapa (tbl.num + (tbl.num >>> 1)) < tbl.capa then
        roundCapa (tbl.used + (tbl.used >>> 1)) else roundCapa (tbl.num + (tbl.num >>> 1)))
      else tbl.capa := by
  unfold hashTableExtend at he
  dsimp only at he
  split_ifs at he ⊢ with htrig hlt
  · exact (Inv.reinsert tbl.items (inv_emptyTable _) (roundCapa_pos _) he).2.1
  · exact (Inv.reinsert tbl.items (inv_emptyTable _) (roundCapa_pos _) he).2.1
  · cases he; rfl

/-- **`hash_table_extend`** either rebuilds the table, with the invariant and no tombstones, or
leaves it as it is, with room for an insertion. -/
theorem hashTableExtend_spec (he : hashTableExtend fuel tbl = some t) :
    Inv t ∧ 0 < t.capa ∧ NoTombstones t.items ∨ t = tbl ∧ 0 < tbl.capa := by
  unfold hashTableExtend at he
  dsimp only at he
  split_ifs at he with htrig hlt
  · obtain ⟨h1, hc1, hno1⟩ := Inv.reinsert tbl.items (inv_emptyTable _) (roundCapa_pos _) he
    exact .inl ⟨h1, by rw [hc1]; exact roundCapa_pos _, hno1 (noTombstones_replicate _)⟩
  · obtain ⟨h1, hc1, hno1⟩ := Inv.reinsert tbl.items (inv_emptyTable _) (roundCapa_pos _) he
    exact .inl ⟨h1, by rw [hc1]; exact roundCapa_pos _, hno1 (noTombstones_replicate _)⟩
  · cases he
    exact .inr ⟨rfl, by omega⟩

/-- The two ways `rb_id_table_insert_key` succeeds: the value of a key found is replaced in
place, or an absent key is inserted into the extended table. -/
theorem rbIdTableInsertKey_eq_some (hi : rbIdTableInsertKey fuel tbl key val = some t) :
    (∃ i, hashTableIndex fuel tbl key = some (some i) ∧
      t = { tbl with items := tbl.items.set i { tbl.item i with val := val } }) ∨
    ∃ t1, hashTableExtend fuel tbl = some t1 ∧ hashTableRawInsert fuel t1 key val = some t := by
  unfold rbIdTableInsertKey at hi
  rcases hidx : hashTableIndex fuel tbl key with _ | _ | i
  · rw [hidx] at hi; cases hi
  · rw [hidx] at hi
    simp only [Option.bind_eq_bind, Option.bind_some] at hi
    rcases hext : hashTableExtend fuel tbl with _ | t1
    · rw [hext] at hi; cases hi
    rw [hext, Option.bind_some] at hi
    exact .inr ⟨t1, rfl, hi⟩
  · rw [hidx] at hi
    simp only [Option.bind_eq_bind, Option.bind_some, Option.pure_def, Option.some.injEq] at hi
    exact .inl ⟨i, rfl, hi.symm⟩

/-- **`rb_id_table_insert_key`** keeps the invariant, and adds no tombstone. -/
theorem Inv.insert (h : Inv tbl) (hkey : key ≠ 0) (hi : rbIdTableInsertKey fuel tbl key val = some t) :
    Inv t ∧ (NoTombstones tbl.items → NoTombstones t.items) := by
  rcases rbIdTableInsertKey_eq_some hi with ⟨i, hidx, rfl⟩ | ⟨t1, hext, hraw⟩
  · -- present: the value is replaced in place
    have hfound := hashTableIndex_eq_some_some hidx
    have hlt := IdTable.lt_length_of_key_ne (by rw [hfound]; exact hkey)
    have hnum' := countP_set_eq (p := Item.isSet) hlt (a := { tbl.item i with val := val }) rfl
    have hused' := countP_set_eq (p := Item.inUse) hlt (a := { tbl.item i with val := val }) rfl
    refine ⟨⟨by rw [List.length_set, h.length_items], by rw [h.num_eq, hnum'],
      by rw [h.used_eq, hused']⟩, fun hno => noTombstones_set hno fun h0 => ?_⟩
    exact absurd h0 (by dsimp only; rw [hfound]; exact hkey)
  · -- absent: extend, then insert
    rcases hashTableExtend_spec hext with ⟨h1, hc1, hno1⟩ | ⟨rfl, hc1⟩
    · obtain ⟨h2, -, hno2⟩ := h1.rawInsert hc1 hkey hraw
      exact ⟨h2, fun _ => hno2 hno1⟩
    · obtain ⟨h2, -, hno2⟩ := h.rawInsert hc1 hkey hraw
      exact ⟨h2, hno2⟩

/-- One operation on an ID keeps the invariant. -/
theorem Inv.run {op : IdOp} (h : Inv tbl) (hkey : op.key ≠ 0) (hr : op.run fuel tbl = some t) :
    Inv t := by
  cases op with
  | insert key val => exact (h.insert hkey hr).1
  | delete key =>
    rcases hd : rbIdTableDelete fuel tbl key with _ | ⟨b, t1⟩
    · rw [IdOp.run, hd] at hr; cases hr
    rw [IdOp.run, hd, Option.map_some] at hr
    cases hr
    exact (h.delete hkey hd).1

end Keep

/-- **Every table a run reaches keeps the invariant**, for operations on IDs (non-zero keys). -/
theorem Inv.runOps {fuel : ℕ} :
    ∀ {ops : List IdOp} {tbl : IdTable} {ts : List IdTable}, Inv tbl → (∀ op ∈ ops, op.key ≠ 0) →
      runOps fuel tbl ops = some ts → ∀ t ∈ ts, Inv t := by
  intro ops
  induction ops with
  | nil =>
    intro tbl ts _ _ hr t ht
    cases hr
    cases ht
  | cons op ops ih =>
    intro tbl ts h hkeys hr
    obtain ⟨t1, ts', h1, hr', rfl⟩ := runOps_cons_eq_some.mp hr
    have hinv1 := h.run (hkeys op List.mem_cons_self) h1
    intro t ht
    rcases List.mem_cons.mp ht with rfl | ht
    · exact hinv1
    · exact ih hinv1 (fun op hop => hkeys op (List.mem_cons_of_mem _ hop)) hr' t ht

/-! ## The capacity -/

section Capacity

variable {fuel : ℕ} {tbl t : IdTable} {key val N : ℕ}

/-- Without tombstones the slots in use are the keys set. -/
theorem Inv.used_eq_num (h : Inv tbl) (hno : NoTombstones tbl.items) : tbl.used = tbl.num := by
  rw [h.used_eq, h.num_eq]
  apply List.countP_congr
  intro it hit
  by_cases hk : it.key = 0
  · rw [Item.inUse_eq_collision hk, hno it hit hk, Item.isSet_eq_false hk]
  · rw [Item.inUse_eq_true hk, Item.isSet_eq_true hk]

/-- **The fallback of `hash_table_extend`** at least doubles a table of capacity `4 * 2 ^ j`: it
is taken only when `round_capa(num + num / 2)` would shrink the table, and then
`used + used / 2 ≥ capa`. -/
theorem hashTableExtend_capa {j : ℕ} (hshape : tbl.capa = 4 * 2 ^ j)
    (hused : tbl.used + (tbl.used >>> 1) < 2 ^ 34) (htrig : tbl.capa ≤ tbl.used + (tbl.used >>> 1))
    (hsmall : roundCapa (tbl.num + (tbl.num >>> 1)) < tbl.capa)
    (he : hashTableExtend fuel tbl = some t) : 2 * tbl.capa ≤ t.capa := by
  rw [hashTableExtend_capa_eq he, if_pos htrig, if_pos hsmall, hshape]
  exact two_mul_le_roundCapa (hshape ▸ htrig) hused

/-- Without tombstones `hash_table_extend` sizes the new table from `num` alone. -/
theorem hashTableExtend_capa_le (h : Inv tbl) (hno : NoTombstones tbl.items) (hN : tbl.num ≤ N)
    (hN34 : N + (N >>> 1) < 2 ^ 34) (he : hashTableExtend fuel tbl = some t) :
    t.capa ≤ max tbl.capa (roundCapa (N + (N >>> 1))) := by
  have hR : roundCapa (tbl.num + (tbl.num >>> 1)) ≤ roundCapa (N + (N >>> 1)) :=
    roundCapa_mono (by simp only [Nat.shiftRight_eq_div_pow]; omega) hN34
  rw [hashTableExtend_capa_eq he, h.used_eq_num hno]
  split_ifs
  · exact hR.trans (le_max_right _ _)
  · exact hR.trans (le_max_right _ _)
  · exact le_max_left _ _

/-- An insertion into a table without tombstones and with at most `N` keys leaves the capacity
within `max capa (round_capa(N + N / 2))`. -/
theorem insert_capa_le (h : Inv tbl) (hno : NoTombstones tbl.items) (hkey : key ≠ 0)
    (hN : tbl.num ≤ N) (hN34 : N + (N >>> 1) < 2 ^ 34)
    (hi : rbIdTableInsertKey fuel tbl key val = some t) :
    t.capa ≤ max tbl.capa (roundCapa (N + (N >>> 1))) := by
  rcases rbIdTableInsertKey_eq_some hi with ⟨i, -, rfl⟩ | ⟨t1, hext, hraw⟩
  · exact le_max_left _ _
  · have hcapa := hashTableExtend_capa_le h hno hN hN34 hext
    rcases hashTableExtend_spec hext with ⟨h1, hc1, -⟩ | ⟨rfl, hc1⟩
    · rw [(h1.rawInsert hc1 hkey hraw).2.1]
      exact hcapa
    · rw [(h.rawInsert hc1 hkey hraw).2.1]
      exact le_max_left _ _

/-- **Without deletions the capacity is bounded by the peak size**: along a run of insertions
whose tables never hold more than `N` keys, the capacity stays within
`max capa (round_capa(N + N / 2))` of the table it starts from. -/
theorem capa_le_of_inserts (hN34 : N + (N >>> 1) < 2 ^ 34) :
    ∀ {ops : List IdOp} {tbl : IdTable} {ts : List IdTable}, Inv tbl → NoTombstones tbl.items →
      (∀ op ∈ ops, ∃ key val, op = .insert key val ∧ key ≠ 0) → tbl.num ≤ N →
      (∀ t ∈ ts, t.num ≤ N) → runOps fuel tbl ops = some ts →
      ∀ t ∈ ts, t.capa ≤ max tbl.capa (roundCapa (N + (N >>> 1))) := by
  intro ops
  induction ops with
  | nil =>
    intro tbl ts _ _ _ _ _ hr t ht
    cases hr
    cases ht
  | cons op ops ih =>
    intro tbl ts h hno hops hN hts hr
    obtain ⟨t1, ts', h1, hr', rfl⟩ := runOps_cons_eq_some.mp hr
    obtain ⟨key, val, rfl, hkey⟩ := hops _ List.mem_cons_self
    -- the first insertion keeps the bound, and the invariant without tombstones for the rest
    have hc1 := insert_capa_le h hno hkey hN hN34 h1
    obtain ⟨hinv1, hno1⟩ := h.insert hkey h1
    intro t ht
    rcases List.mem_cons.mp ht with rfl | ht
    · exact hc1
    · have hrest := ih hinv1 (hno1 hno) (fun op hop => hops op (List.mem_cons_of_mem _ hop))
        (hts t1 List.mem_cons_self) (fun t ht => hts t (List.mem_cons_of_mem _ ht)) hr' t ht
      calc t.capa ≤ max t1.capa (roundCapa (N + (N >>> 1))) := hrest
        _ ≤ max tbl.capa (roundCapa (N + (N >>> 1))) := max_le hc1 (le_max_right _ _)

end Capacity

/-- Two keys at a time inserted and deleted in a table of capacity 8: the keys `8` and `16` collide
at slot 0, and so on for the slots 2, 4, 6, 1 and 3; each deletion of the first of a pair leaves a
tombstone. -/
def churnOps : List IdOp :=
  [.insert 8 0, .insert 16 0, .delete 8, .delete 16, .insert 2 0, .insert 10 0, .delete 2, .delete 10,
    .insert 4 0, .insert 12 0, .delete 4, .delete 12, .insert 6 0, .insert 14 0, .delete 6,
    .delete 14, .insert 1 0, .insert 9 0, .delete 1, .delete 9, .insert 3 0, .insert 11 0]

/-- **Tombstones grow the table**: along `churnOps` no table holds more than two keys, yet the
capacity goes past `max 8 (round_capa(2 + 2 / 2)) = 8`, the table `rb_id_table_create(5)` starts
with; the last insertion finds `used + used / 2 ≥ capa` with six slots in use, of which one
holds a key, and `hash_table_extend` falls back to `round_capa(used + used / 2) = 16`. -/
theorem churn_grows_capa :
    ∃ ts, runOps 16 (rbIdTableCreate 5) churnOps = some ts ∧ (rbIdTableCreate 5).num ≤ 2 ∧
      (∀ t ∈ ts, t.num ≤ 2) ∧
      ∃ t ∈ ts, max (rbIdTableCreate 5).capa (roundCapa (2 + (2 >>> 1))) < t.capa := by
  refine ⟨_, rfl, ?_, ?_, ?_⟩ <;> decide

end CRuby.Sym
