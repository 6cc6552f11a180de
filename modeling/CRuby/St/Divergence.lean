import CRuby.St.Reachable

/-!
# `st.c`: a table whose searches never return

The search loops of `st.c` stop only at an empty bin or at the key's entry. The design keeps
an empty bin by sizing the bins at twice the entries and clearing them at every rebuild, but
`st_shift` on a table with no live entry resets `entries_start` and `entries_bound` to `0`
without touching the bins: the `DELETED_BIN`s of the shifted entries stay, and the entries
appended afterwards fill the empty bins before the array is full and a rebuild clears them.

This file states when a search can never return (`findBinLoop_eq_none_of_pass`: every bin is
crossed), and exhibits a run of `st_insert` and `st_shift` on a `st_init_numtable_with_size(16)`
table after which no bin is empty and `st_lookup` and `st_get_key` of an absent key never
return.
-/

namespace CRuby.St

open Probing

variable {ty : StHashType} {tab tab' : StTable}

/-! ## Runs of operations -/

/-- The operations `ops` in turn, their searches run with `fuel`. -/
def runOps (fuel : ℕ) (ty : StHashType) : List StOp → StTable → Option StTable
  | [], tab => some tab
  | op :: ops, tab => (op.run fuel ty tab).bind (runOps fuel ty ops)

/-- A run of operations that need no promise from their caller, from a reachable table, ends
at a reachable table. -/
theorem Reachable.runOps {fuel : ℕ} :
    ∀ {ops : List StOp} {tab tab' : StTable}, (∀ op ∈ ops, ∀ t, op.Allowed ty t) →
      Reachable ty tab → runOps fuel ty ops tab = some tab' → Reachable ty tab'
  | [], _, _, _, h, hrun => by
    obtain rfl := Option.some.inj hrun
    exact h
  | op :: ops, tab, tab', hallowed, h, hrun => by
    obtain ⟨t, hop, hrest⟩ := Option.bind_eq_some_iff.mp hrun
    have hstep : Reachable ty t := .step h (hallowed op List.mem_cons_self tab) hop
    exact Reachable.runOps (fun op' hop' => hallowed op' (List.mem_cons_of_mem op hop')) hstep hrest

/-! ## Searches that never return -/

section Pass

variable {bins : List ℕ} {hv : ℕ} {key : StData}

/-- No bin stops the search for `key`: each is deleted, or holds an entry without the key. -/
def binsAllPass (ty : StHashType) (tab : StTable) (bins : List ℕ) (hashValue : ℕ)
    (key : StData) : Bool :=
  (List.range bins.length).all fun b => findBinLook ty tab bins hashValue key (b, 0) == .next

/-- A look reads the loop state's bin index only. -/
theorem findBinLook_eq_fst (s : ℕ × ℕ) :
    findBinLook ty tab bins hv key s = findBinLook ty tab bins hv key (s.1, 0) := rfl

theorem findBinLook_next_of_pass (h : binsAllPass ty tab bins hv key = true) {b : ℕ}
    (hb : b < bins.length) (p : ℕ) : findBinLook ty tab bins hv key (b, p) = .next := by
  have hall := List.all_eq_true.mp h b (List.mem_range.mpr hb)
  rw [findBinLook_eq_fst]
  exact beq_iff_eq.mp hall

/-- **The search never returns** when no bin stops it: whatever the fuel, the loop of
`find_table_entry_ind` and `find_table_bin_ind` has not left. -/
theorem findBinLoop_eq_none_of_pass (hlen : bins.length = 2 ^ tab.binPower)
    (h : binsAllPass ty tab bins hv key = true) (fuel : ℕ) :
    findBinLoop fuel ty tab bins hv key = none := by
  apply walk_eq_none_of_next
  intro j
  rw [probeStep_iterate]
  exact findBinLook_next_of_pass h (hlen ▸ probe_fst_lt tab.binPower hv j) _

/-- No bin a search can meet is empty when no bin stops the search. -/
theorem not_emptyAt_of_pass (hlen : bins.length = 2 ^ tab.binPower)
    (h : binsAllPass ty tab bins hv key = true) {b : ℕ} (hb : b < 2 ^ tab.binPower) :
    ¬ EmptyAt bins b :=
  (findBinLook_next (findBinLook_next_of_pass h (hlen ▸ hb) 0)).1

/-- `st_lookup` never returns when no bin stops the search for the key. -/
theorem stLookup_eq_none_of_pass (hb : tab.bins = some bins)
    (hlen : bins.length = 2 ^ tab.binPower)
    (h : binsAllPass ty tab bins (doHash ty key) key = true) (fuel : ℕ) :
    stLookup fuel ty tab key = none := by
  simp [stLookup, lookupIndex, hb, findTableEntryInd, findBinLoop_eq_none_of_pass hlen h fuel]

/-- `st_get_key` never returns when no bin stops the search for the key. -/
theorem stGetKey_eq_none_of_pass (hb : tab.bins = some bins)
    (hlen : bins.length = 2 ^ tab.binPower)
    (h : binsAllPass ty tab bins (doHash ty key) key = true) (fuel : ℕ) :
    stGetKey fuel ty tab key = none := by
  simp [stGetKey, lookupIndex, hb, findTableEntryInd, findBinLoop_eq_none_of_pass hlen h fuel]

end Pass

/-! ## The run that fills the bins -/

/-- 32 keys inserted, 33 `st_shift`s (the last one on a table with no live entry, which resets
the range), 32 new keys inserted. -/
def shiftResetOps : List StOp :=
  (List.range 32).map (fun k => StOp.insert k k) ++ List.replicate 33 StOp.shift ++
    (List.range' 32 32).map fun k => StOp.insert k k

theorem shiftResetOps_allowed : ∀ op ∈ shiftResetOps, ∀ t, op.Allowed ty t := by
  intro op hop t
  simp only [shiftResetOps, List.mem_append, List.mem_map, List.mem_replicate] at hop
  rcases hop with (⟨k, -, rfl⟩ | ⟨-, rfl⟩) | ⟨k, -, rfl⟩ <;> trivial

/-- `st_init_numtable_with_size(16)`: 32 entries, 64 bins of one byte. -/
def numTable16 : StTable := ⟨5, 6, 0, 0, 0, 0, some (initializeBins 6), [], 0⟩

theorem stInitTableWithSize_sixteen : stInitTableWithSize 16 = some numTable16 := by
  decide

/-- The table the run leaves: its bins and how the search for `64` fares. -/
def shiftResetCheck (t : StTable) : Bool :=
  match t.bins with
  | some bins => bins.length == 2 ^ t.binPower &&
      binsAllPass stHashtypeNum t bins (doHash stHashtypeNum 64) 64 &&
      (liveEntries t).all fun e => e.key != 64
  | none => false

theorem shiftReset_run :
    ∃ t, runOps 64 stHashtypeNum shiftResetOps numTable16 = some t ∧ shiftResetCheck t = true := by
  have hsome : (runOps 64 stHashtypeNum shiftResetOps numTable16).isSome = true := by decide
  obtain ⟨t, ht⟩ := Option.isSome_iff_exists.mp hsome
  have hcheck : (runOps 64 stHashtypeNum shiftResetOps numTable16).map shiftResetCheck =
      some true := by decide
  rw [ht] at hcheck
  exact ⟨t, ht, Option.some.inj hcheck⟩

/-- The table the run reaches, with its bins. -/
theorem shiftReset_reachable :
    ∃ t bins, Reachable stHashtypeNum t ∧ t.bins = some bins ∧ bins.length = 2 ^ t.binPower ∧
      binsAllPass stHashtypeNum t bins (doHash stHashtypeNum 64) 64 = true ∧
      ∀ e ∈ liveEntries t, e.key ≠ 64 := by
  obtain ⟨t, ht, hcheck⟩ := shiftReset_run
  have hreach : Reachable stHashtypeNum t :=
    Reachable.runOps shiftResetOps_allowed (.init stInitTableWithSize_sixteen) ht
  unfold shiftResetCheck at hcheck
  split at hcheck
  · rename_i bins hb
    simp only [Bool.and_eq_true, beq_iff_eq, List.all_eq_true, bne_iff_ne, ne_eq] at hcheck
    obtain ⟨⟨hlen, hpass⟩, hkeys⟩ := hcheck
    exact ⟨t, bins, hreach, hb, hlen, hpass, hkeys⟩
  · cases hcheck

/-- A reachable numeric table in which no bin is empty and `st_lookup` of the absent key `64`
never returns. -/
theorem shift_reset_lookup_diverges :
    ∃ t, Reachable stHashtypeNum t ∧
      (∀ bins, t.bins = some bins → ∀ b < 2 ^ t.binPower, ¬ EmptyAt bins b) ∧
      ∀ fuel, stLookup fuel stHashtypeNum t 64 = none := by
  obtain ⟨t, bins, hreach, hb, hlen, hpass, -⟩ := shiftReset_reachable
  refine ⟨t, hreach, fun bins' hb' b hlt => ?_, stLookup_eq_none_of_pass hb hlen hpass⟩
  rw [hb] at hb'
  obtain rfl := Option.some.inj hb'
  exact not_emptyAt_of_pass hlen hpass hlt

/-- A reachable numeric table whose live entries do not have the key `64`, on which
`st_get_key` of `64` never returns instead of answering that the key is absent. -/
theorem shift_reset_get_key_diverges :
    ∃ t, Reachable stHashtypeNum t ∧ (∀ e ∈ liveEntries t, e.key ≠ 64) ∧
      ∀ fuel, stGetKey fuel stHashtypeNum t 64 = none := by
  obtain ⟨t, bins, hreach, hb, hlen, hpass, hkeys⟩ := shiftReset_reachable
  exact ⟨t, hreach, hkeys, stGetKey_eq_none_of_pass hb hlen hpass⟩

end CRuby.St
