import CRuby.St.Ops
import Mathlib.Data.Finset.Card

/-!
# `st.c`: the representation invariant

`Inv ty tab` is the invariant `st_check` states (with its early `return` removed), together
with the two facts about keys that the searches rely on: a live entry stores its key's hash,
and no two live entries have `EQUAL` keys. The bins part, `BinsInv`, says that a bin holding
`ENTRY_BASE + i` points at the live entry `i`, which reaches the bin along its probe sequence
before any empty bin, and that every live entry has exactly one bin. Deleted bins never stop a
search, so only the empty bins decide what a search can reach (`Probing.ReachedBefore`).

`LawfulHashType ty` is what the table asks of its type: `EQUAL` is an equivalence and `EQUAL`
keys have the same hash.

Both invariants see a table only through its sizes and its live slots (`StTable.LiveAt`), so a
write to the table is described once by what it does to the live slots, and the lemmas of
this file carry the invariants across any such change: a slot that becomes live, a slot that
is deleted, a slot whose entry changes but keeps its hash.
-/

namespace CRuby.St

open Probing

/-! ## Live slots -/

/-- Entry `i` of the range `[entries_start, entries_bound)` is `e` and is not deleted. -/
def StTable.LiveAt (tab : StTable) (i : ℕ) (e : StTableEntry) : Prop :=
  tab.entriesStart ≤ i ∧ i < tab.entriesBound ∧ tab.entries[i]? = some e ∧ deletedEntryP e = false

/-- Slot `i` holds an entry that is not deleted. -/
def StTable.liveSlotP (tab : StTable) (i : ℕ) : Bool :=
  match tab.entries[i]? with
  | some e => !deletedEntryP e
  | none => false

/-- The live slots of the range, in order. -/
def liveSlots (tab : StTable) : List ℕ :=
  (List.range' tab.entriesStart (tab.entriesBound - tab.entriesStart)).filter tab.liveSlotP

/-- The live entries, in insertion order. -/
def liveEntries (tab : StTable) : List StTableEntry :=
  (liveSlots tab).filterMap fun i => tab.entries[i]?

/-- The probe sequence of a hash, as bin indices. -/
def probeSeq (binPower hashValue : ℕ) (j : ℕ) : ℕ := (probe binPower hashValue j).1

/-- Bin `b` of `bins` is empty. -/
def EmptyAt (bins : List ℕ) (b : ℕ) : Prop := getBin bins b = emptyBin

/-- The bins part of the invariant. -/
structure BinsInv (tab : StTable) (bins : List ℕ) : Prop where
  /-- the array has `2^bin_power` bins -/
  length_eq : bins.length = 2 ^ tab.binPower
  /-- a bin holding `ENTRY_BASE + i` points at the live entry `i`, which reaches it along its
  probe sequence before any empty bin -/
  bin_live : ∀ b, entryBase ≤ getBin bins b → ∃ e, tab.LiveAt (getBin bins b - entryBase) e ∧
    ReachedBefore (probeSeq tab.binPower e.hash) (EmptyAt bins) b
  /-- every live entry is pointed at by exactly one bin -/
  entry_bin : ∀ i e, tab.LiveAt i e → ∃! b, b < 2 ^ tab.binPower ∧ getBin bins b = i + entryBase

/-- Two entries whose keys are not `EQUAL`, either way round. -/
def KeysApart (ty : StHashType) (a b : StTableEntry) : Prop :=
  stEqual ty a.key b.key = false ∧ stEqual ty b.key a.key = false

/-- The representation invariant of a table. -/
structure Inv (ty : StHashType) (tab : StTable) : Prop where
  /-- `MINIMAL_POWER2 ≤ entry_power` -/
  entryPower_ge : minimalPower2 ≤ tab.entryPower
  /-- `entry_power ≤ MAX_POWER2` -/
  entryPower_le : tab.entryPower ≤ maxPower2
  /-- the bins are sized by `features[entry_power]` -/
  binPower_eq : tab.binPower = (getFeatures tab.entryPower).binPower
  /-- the bin width is `features[entry_power].size_ind` -/
  sizeInd_eq : tab.sizeInd = (getFeatures tab.entryPower).sizeInd
  /-- `entries_start ≤ entries_bound` -/
  start_le_bound : tab.entriesStart ≤ tab.entriesBound
  /-- `entries_bound ≤ 2^entry_power` -/
  bound_le : tab.entriesBound ≤ 2 ^ tab.entryPower
  /-- the list holds exactly the slots below the bound -/
  length_entries : tab.entries.length = tab.entriesBound
  /-- `num_entries` counts the live entries of the range -/
  numEntries_eq : tab.numEntries = (liveSlots tab).length
  /-- `bins == NULL` exactly for the tables searched linearly -/
  bins_none_iff : tab.bins = none ↔ tab.entryPower ≤ maxPower2ForTablesWithoutBins
  /-- the bins, when there are -/
  bins_inv : ∀ bins, tab.bins = some bins → BinsInv tab bins
  /-- a live entry stores its key's hash -/
  hash_eq : ∀ i e, tab.LiveAt i e → e.hash = doHash ty e.key
  /-- no two live entries have `EQUAL` keys -/
  keys_apart : ∀ i j e e', tab.LiveAt i e → tab.LiveAt j e' → i ≠ j → KeysApart ty e e'

/-- What the table relies on of its type: `EQUAL` is symmetric and transitive (it is
reflexive by its `x == y` test), and `EQUAL` keys have the same `do_hash`. -/
structure LawfulHashType (ty : StHashType) : Prop where
  /-- `EQUAL` is symmetric -/
  symm : ∀ x y, stEqual ty x y = true → stEqual ty y x = true
  /-- `EQUAL` is transitive -/
  trans : ∀ x y z, stEqual ty x y = true → stEqual ty y z = true → stEqual ty x z = true
  /-- `EQUAL` keys have the same `do_hash` -/
  doHash_eq : ∀ x y, stEqual ty x y = true → doHash ty x = doHash ty y

variable {ty : StHashType} {tab : StTable}

/-- A slot holds one entry. -/
theorem StTable.LiveAt.unique {i : ℕ} {e e' : StTableEntry} (h : tab.LiveAt i e)
    (h' : tab.LiveAt i e') : e = e' := by
  have := h.2.2.1.symm.trans h'.2.2.1
  exact Option.some.inj this

theorem StTable.liveSlotP_iff {i : ℕ} : tab.liveSlotP i = true ↔
    ∃ e, tab.entries[i]? = some e ∧ deletedEntryP e = false := by
  unfold StTable.liveSlotP
  split
  · rename_i e he
    simp [he]
  · rename_i he
    simp [he]

theorem mem_liveSlots {i : ℕ} : i ∈ liveSlots tab ↔ ∃ e, tab.LiveAt i e := by
  rw [liveSlots, List.mem_filter, List.mem_range'_1, StTable.liveSlotP_iff]
  constructor
  · rintro ⟨hi, e, he, hdel⟩
    exact ⟨e, hi.1, by omega, he, hdel⟩
  · rintro ⟨e, hs, hb, he, hdel⟩
    exact ⟨⟨hs, by omega⟩, e, he, hdel⟩

/-- The live slots are listed in increasing order. -/
theorem liveSlots_sorted : (liveSlots tab).Pairwise (· < ·) :=
  (List.pairwise_lt_range' _).filter _

theorem liveSlots_nodup : (liveSlots tab).Nodup :=
  liveSlots_sorted.imp Nat.ne_of_lt

/-- The `j`-th live entry is the entry of the `j`-th live slot. -/
theorem liveEntries_eq_map :
    liveEntries tab = (liveSlots tab).map fun i => tab.entries.getD i ⟨0, 0, 0⟩ := by
  rw [liveEntries, List.filterMap_eq_map_iff_forall_eq_some]
  intro i hi
  obtain ⟨e, -, -, he, -⟩ := mem_liveSlots.mp hi
  simp [List.getD_eq_getElem?_getD, he]

theorem length_liveEntries : (liveEntries tab).length = (liveSlots tab).length := by
  rw [liveEntries_eq_map, List.length_map]

theorem getElem?_liveEntries {j : ℕ} {e : StTableEntry} :
    (liveEntries tab)[j]? = some e ↔ ∃ i, (liveSlots tab)[j]? = some i ∧ tab.LiveAt i e := by
  rw [liveEntries_eq_map, List.getElem?_map]
  constructor
  · intro h
    obtain ⟨i, hi, rfl⟩ := Option.map_eq_some_iff.mp h
    obtain ⟨e, he⟩ := mem_liveSlots.mp (List.mem_of_getElem? hi)
    refine ⟨i, hi, ?_⟩
    simpa [List.getD_eq_getElem?_getD, he.2.2.1] using he
  · rintro ⟨i, hi, he⟩
    simp [hi, List.getD_eq_getElem?_getD, he.2.2.1]

theorem mem_liveEntries {e : StTableEntry} : e ∈ liveEntries tab ↔ ∃ i, tab.LiveAt i e := by
  rw [List.mem_iff_getElem?]
  constructor
  · rintro ⟨j, hj⟩
    obtain ⟨i, -, he⟩ := getElem?_liveEntries.mp hj
    exact ⟨i, he⟩
  · rintro ⟨i, he⟩
    obtain ⟨j, hj⟩ := List.mem_iff_getElem?.mp (mem_liveSlots.mpr ⟨e, he⟩)
    exact ⟨j, getElem?_liveEntries.mpr ⟨i, hj, he⟩⟩

/-! ## Counting live slots

`num_entries` is the length of `liveSlots`, which is determined by which slots are live: a
write that makes one more slot live adds one, a deletion takes one away. -/

section Count

variable {tab' : StTable}

theorem toFinset_liveSlots_eq_of_iff {S : Finset ℕ} (h : ∀ i, (∃ e, tab.LiveAt i e) ↔ i ∈ S) :
    (liveSlots tab).toFinset = S := by
  ext i
  rw [List.mem_toFinset, mem_liveSlots, h]

theorem length_liveSlots : (liveSlots tab).length = (liveSlots tab).toFinset.card :=
  (List.toFinset_card_of_nodup liveSlots_nodup).symm

theorem length_liveSlots_of_iff (h : ∀ i, (∃ e, tab'.LiveAt i e) ↔ ∃ e, tab.LiveAt i e) :
    (liveSlots tab').length = (liveSlots tab).length := by
  rw [length_liveSlots, length_liveSlots,
    toFinset_liveSlots_eq_of_iff fun i => by
      rw [h, List.mem_toFinset, mem_liveSlots]]

/-- One more live slot. -/
theorem length_liveSlots_of_iff_insert {n : ℕ} (hn : ∀ e, ¬ tab.LiveAt n e)
    (h : ∀ i, (∃ e, tab'.LiveAt i e) ↔ (∃ e, tab.LiveAt i e) ∨ i = n) :
    (liveSlots tab').length = (liveSlots tab).length + 1 := by
  have hnot : n ∉ (liveSlots tab).toFinset := by
    rw [List.mem_toFinset, mem_liveSlots]
    rintro ⟨e, he⟩
    exact hn e he
  rw [length_liveSlots, length_liveSlots, ← Finset.card_insert_of_notMem hnot,
    toFinset_liveSlots_eq_of_iff fun i => by
      rw [h, Finset.mem_insert, List.mem_toFinset, mem_liveSlots, or_comm]]

/-- One live slot fewer. -/
theorem length_liveSlots_of_iff_erase {n : ℕ} {e₀ : StTableEntry} (hn : tab.LiveAt n e₀)
    (h : ∀ i, (∃ e, tab'.LiveAt i e) ↔ (∃ e, tab.LiveAt i e) ∧ i ≠ n) :
    (liveSlots tab').length + 1 = (liveSlots tab).length := by
  have hmem : n ∈ (liveSlots tab).toFinset := by
    rw [List.mem_toFinset, mem_liveSlots]
    exact ⟨e₀, hn⟩
  rw [length_liveSlots, length_liveSlots, ← Finset.card_erase_add_one hmem,
    toFinset_liveSlots_eq_of_iff fun i => by
      rw [h, Finset.mem_erase, List.mem_toFinset, mem_liveSlots, and_comm]]

end Count

theorem KeysApart.symm {a b : StTableEntry} (h : KeysApart ty a b) : KeysApart ty b a :=
  ⟨h.2, h.1⟩

/-- Keys apart from `a` are apart from any key `EQUAL` to `a`'s. -/
theorem KeysApart.of_stEqual (hty : LawfulHashType ty) {a b c : StTableEntry}
    (h : KeysApart ty a c) (hab : stEqual ty a.key b.key = true) : KeysApart ty b c := by
  constructor
  · rw [Bool.eq_false_iff]
    intro hbc
    have hac := hty.trans _ _ _ hab hbc
    rw [h.1] at hac
    cases hac
  · rw [Bool.eq_false_iff]
    intro hcb
    have hca := hty.trans _ _ _ hcb (hty.symm _ _ hab)
    rw [h.2] at hca
    cases hca

/-- A live entry that does not match a key under the key's own hash has a key apart from it:
an `EQUAL` key would have hashed alike. -/
theorem Inv.keysApart_of_ptrEqual (hinv : Inv ty tab) (hty : LawfulHashType ty) {i : ℕ}
    {e : StTableEntry} (he : tab.LiveAt i e) {key : StData}
    (h : ptrEqual ty e (doHash ty key) key = false) :
    stEqual ty key e.key = false ∧ stEqual ty e.key key = false := by
  have hkey : stEqual ty key e.key = false := by
    rw [Bool.eq_false_iff]
    intro hk
    have hhash : e.hash = doHash ty key := by
      rw [hinv.hash_eq i e he, hty.doHash_eq _ _ (hty.symm _ _ hk)]
    simp [ptrEqual, hhash, hk] at h
  refine ⟨hkey, ?_⟩
  rw [Bool.eq_false_iff]
  intro hk
  rw [hty.symm _ _ hk] at hkey
  cases hkey

/-- Two live entries with `EQUAL` keys are the same slot. -/
theorem Inv.eq_of_stEqual (hinv : Inv ty tab) {i j : ℕ} {e e' : StTableEntry}
    (hi : tab.LiveAt i e) (hj : tab.LiveAt j e') (heq : stEqual ty e.key e'.key = true) :
    i = j := by
  by_contra hne
  have hapart := (hinv.keys_apart i j e e' hi hj hne).1
  rw [heq] at hapart
  cases hapart

/-! ## Bins -/

theorem getBin_eq_zero_of_le {bins : List ℕ} {b : ℕ} (hb : bins.length ≤ b) : getBin bins b = 0 := by
  simp [getBin, List.getD_eq_getElem?_getD, List.getElem?_eq_none hb]

/-- A bin with a value is inside the array. -/
theorem lt_of_getBin_ne_zero {bins : List ℕ} {b : ℕ} (hb : getBin bins b ≠ 0) : b < bins.length := by
  by_contra h
  exact hb (getBin_eq_zero_of_le (Nat.le_of_not_lt h))

/-- The bin of a live entry: it holds the entry's index and is reached before any empty bin. -/
theorem BinsInv.bin_of_live {bins : List ℕ} (hb : BinsInv tab bins) {i : ℕ} {e : StTableEntry}
    (he : tab.LiveAt i e) :
    ∃ b, b < 2 ^ tab.binPower ∧ getBin bins b = i + entryBase ∧
      ReachedBefore (probeSeq tab.binPower e.hash) (EmptyAt bins) b := by
  obtain ⟨b, ⟨hblt, hbv⟩, -⟩ := hb.entry_bin i e he
  obtain ⟨e', he', hreach⟩ := hb.bin_live b (by rw [hbv]; omega)
  rw [hbv, Nat.add_sub_cancel] at he'
  obtain rfl := he.unique he'
  exact ⟨b, hblt, hbv, hreach⟩

end CRuby.St
