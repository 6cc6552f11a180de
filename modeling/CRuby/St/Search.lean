import CRuby.St.Inv
import CRuby.Lib.FullPeriod

/-!
# `st.c`: what the search loops find

The specs of the search loops of `CRuby.St.Find` on a table whose bins satisfy `BinsInv`.
Each loop answers from one look at a bin; the lemmas on the looks say what a single look
decides, and the loop specs follow from `Probing.walk_eq_some`:

* a bin search that answers a bin answers one that holds a live entry with the key;
* one that answers "absent" stopped at an empty bin after crossing only bins without the key,
  and since every live entry's bin is reached before any empty bin, no live entry has the key
  (`BinsInv.ptrEqual_eq_false_of_probe`);
* `find_table_bin_ind_direct` answers an empty or deleted bin reached before any empty bin;
* `find_table_bin_ptr_and_reserve` on an absent key reserves such a bin as well, the first
  deleted one it crossed or else the empty one it stopped at.
-/

namespace CRuby.St

open Probing

variable {ty : StHashType} {tab : StTable}

/-! ## What one look decides -/

section Looks

variable {bins : List ℕ} {hv : ℕ} {key : StData}

theorem emptyOrDeletedBinP_iff (b : ℕ) : emptyOrDeletedBinP b = true ↔ b < entryBase := by
  rw [emptyOrDeletedBinP, decide_eq_true_iff]
  simp only [deletedBin, entryBase]
  omega

theorem findBinLook_found_some {s : ℕ × ℕ} {ind bin : ℕ}
    (h : findBinLook ty tab bins hv key s = .found (some (ind, bin))) :
    ind = s.1 ∧ getBin bins s.1 = bin ∧ entryBase ≤ bin ∧
      ∃ e, tab.entries[bin - entryBase]? = some e ∧ ptrEqual ty e hv key = true := by
  dsimp only [findBinLook] at h
  split at h
  · split at h <;> cases h
  · rename_i hed
    split at h
    · cases h
    · rename_i e hget
      split at h
      · cases h
        rw [emptyOrDeletedBinP_iff] at hed
        exact ⟨rfl, rfl, Nat.le_of_not_lt hed, e, hget, by assumption⟩
      · cases h

theorem findBinLook_found_none {s : ℕ × ℕ} (h : findBinLook ty tab bins hv key s = .found none) :
    EmptyAt bins s.1 := by
  dsimp only [findBinLook] at h
  split at h
  · split at h
    · rename_i he
      exact beq_iff_eq.mp he
    · cases h
  · split at h
    · cases h
    · split at h <;> cases h

theorem findBinLook_next {s : ℕ × ℕ} (h : findBinLook ty tab bins hv key s = .next) :
    ¬ EmptyAt bins s.1 ∧ ∀ e, entryBase ≤ getBin bins s.1 →
      tab.entries[getBin bins s.1 - entryBase]? = some e → ptrEqual ty e hv key = false := by
  dsimp only [findBinLook] at h
  split at h
  · rename_i hed
    split at h
    · cases h
    · rename_i he
      rw [emptyOrDeletedBinP_iff] at hed
      refine ⟨fun hempty => he (beq_iff_eq.mpr hempty), fun e hge => absurd hge ?_⟩
      omega
  · rename_i hed
    rw [emptyOrDeletedBinP_iff] at hed
    split at h
    · cases h
    · rename_i e hget
      split at h
      · cases h
      · rename_i hm
        refine ⟨fun hempty => hed ?_, fun e' _ he' => ?_⟩
        · unfold EmptyAt at hempty
          rw [hempty]
          decide
        · rw [hget] at he'
          obtain rfl := Option.some.inj he'
          exact Bool.eq_false_iff.mpr hm

theorem directLook_found {s : ℕ × ℕ} {b : ℕ} (h : directLook bins s = .found b) :
    b = s.1 ∧ getBin bins s.1 < entryBase := by
  unfold directLook at h
  split at h
  · rename_i hed
    cases h
    exact ⟨rfl, (emptyOrDeletedBinP_iff _).mp hed⟩
  · cases h

theorem directLook_next {s : ℕ × ℕ} (h : directLook bins s = .next) :
    entryBase ≤ getBin bins s.1 := by
  unfold directLook at h
  split at h
  · cases h
  · rename_i hed
    rw [emptyOrDeletedBinP_iff] at hed
    omega

theorem reserveLook_found_some {s : ℕ × ℕ × Option ℕ} {v : ℕ} {fd : Option ℕ} {ind : ℕ}
    (h : reserveLook ty tab bins hv key s = .found (some v, fd, ind)) :
    ind = s.1 ∧ getBin bins s.1 = v ∧ entryBase ≤ v ∧
      ∃ e, tab.entries[v - entryBase]? = some e ∧ ptrEqual ty e hv key = true := by
  dsimp only [reserveLook] at h
  split at h
  · cases h
  · rename_i hne
    split at h
    · rename_i hnd
      split at h
      · cases h
      · rename_i e hget
        split at h
        · rename_i hm
          cases h
          have hv2 : entryBase ≤ getBin bins s.1 := by
            simp only [emptyBinP, deletedBinP, emptyBin, deletedBin, beq_iff_eq,
              Bool.not_eq_eq_eq_not, Bool.not_true, beq_eq_false_iff_ne] at hne hnd
            simp only [entryBase]
            omega
          exact ⟨rfl, rfl, hv2, e, hget, hm⟩
        · cases h
    · cases h

theorem reserveLook_found_none {s : ℕ × ℕ × Option ℕ} {fd : Option ℕ} {ind : ℕ}
    (h : reserveLook ty tab bins hv key s = .found (none, fd, ind)) :
    EmptyAt bins s.1 ∧ fd = s.2.2 ∧ ind = s.1 := by
  dsimp only [reserveLook] at h
  split at h
  · rename_i he
    cases h
    exact ⟨beq_iff_eq.mp he, rfl, rfl⟩
  · split at h
    · split at h
      · cases h
      · split at h <;> cases h
    · cases h

theorem reserveLook_next {s : ℕ × ℕ × Option ℕ} (h : reserveLook ty tab bins hv key s = .next) :
    ¬ EmptyAt bins s.1 ∧ ∀ e, entryBase ≤ getBin bins s.1 →
      tab.entries[getBin bins s.1 - entryBase]? = some e → ptrEqual ty e hv key = false := by
  dsimp only [reserveLook] at h
  split at h
  · cases h
  · rename_i hne
    have hnempty : ¬ EmptyAt bins s.1 := fun hempty => hne (beq_iff_eq.mpr hempty)
    split at h
    · split at h
      · cases h
      · rename_i e hget
        split at h
        · cases h
        · rename_i hm
          refine ⟨hnempty, fun e' _ he' => ?_⟩
          rw [hget] at he'
          obtain rfl := Option.some.inj he'
          exact Bool.eq_false_iff.mpr hm
    · rename_i hd
      refine ⟨hnempty, fun e hge => absurd hge ?_⟩
      have hd1 : getBin bins s.1 = deletedBin := by simpa [deletedBinP] using hd
      rw [hd1]
      decide

end Looks

/-! ## `find_entry` -/

section Linear

variable {hv : ℕ} {key : StData}

/-- An entry that matches a hash other than the reserved one is not deleted. -/
theorem deletedEntryP_of_ptrEqual {e : StTableEntry} (hres : hv ≠ reservedHashVal)
    (h : ptrEqual ty e hv key = true) : deletedEntryP e = false := by
  simp only [ptrEqual, Bool.and_eq_true, beq_iff_eq] at h
  simp only [deletedEntryP, h.1, beq_eq_false_iff_ne]
  exact hres

theorem mem_range'_iff {i : ℕ} :
    i ∈ List.range' tab.entriesStart (tab.entriesBound - tab.entriesStart) ↔
      tab.entriesStart ≤ i ∧ i < tab.entriesBound := by
  rw [List.mem_range'_1]
  omega

/-- **Found.** `find_entry` answers a live slot of the range whose entry matches. -/
theorem findEntry_eq_some (hres : hv ≠ reservedHashVal) {i : ℕ}
    (h : findEntry ty tab hv key = some i) :
    ∃ e, tab.LiveAt i e ∧ ptrEqual ty e hv key = true := by
  have hmem := mem_range'_iff.mp (List.mem_of_find?_eq_some h)
  have hmatch := List.find?_some h
  split at hmatch
  · rename_i e he
    exact ⟨e, ⟨hmem.1, hmem.2, he, deletedEntryP_of_ptrEqual hres hmatch⟩, hmatch⟩
  · cases hmatch

/-- **Absent.** When `find_entry` answers `UNDEFINED_ENTRY_IND`, no live entry matches. -/
theorem findEntry_eq_none (h : findEntry ty tab hv key = none) {i : ℕ} {e : StTableEntry}
    (he : tab.LiveAt i e) : ptrEqual ty e hv key = false := by
  have hno := List.find?_eq_none.mp h i (mem_range'_iff.mpr ⟨he.1, he.2.1⟩)
  simp only [he.2.2.1, Bool.not_eq_true] at hno
  exact hno

end Linear

/-! ## The loops -/

section Loops

variable {bins : List ℕ} {hv : ℕ} {key : StData} {fuel : ℕ}

/-- A bin that holds an entry index points at a live entry. -/
theorem BinsInv.liveAt_of_getBin (hb : BinsInv tab bins) {b : ℕ} {e : StTableEntry}
    (hge : entryBase ≤ getBin bins b) (he : tab.entries[getBin bins b - entryBase]? = some e) :
    tab.LiveAt (getBin bins b - entryBase) e := by
  obtain ⟨e', he', -⟩ := hb.bin_live b hge
  rw [he'.2.2.1] at he
  rwa [← Option.some.inj he]

/-- **No live entry has the key** once a probe of `hv` has stopped at an empty bin after
crossing only bins that do not hold an entry with the key: the bin of such an entry would have
been crossed. -/
theorem BinsInv.ptrEqual_eq_false_of_probe (hb : BinsInv tab bins) {m : ℕ}
    (hempty : EmptyAt bins (probeSeq tab.binPower hv m))
    (hpass : ∀ j < m, ∀ e, entryBase ≤ getBin bins (probeSeq tab.binPower hv j) →
      tab.entries[getBin bins (probeSeq tab.binPower hv j) - entryBase]? = some e →
        ptrEqual ty e hv key = false)
    {i : ℕ} {e : StTableEntry} (he : tab.LiveAt i e) : ptrEqual ty e hv key = false := by
  rw [Bool.eq_false_iff]
  intro hmatch
  have hhash : e.hash = hv := by
    simp only [ptrEqual, Bool.and_eq_true, beq_iff_eq] at hmatch
    exact hmatch.1
  obtain ⟨b, -, hbv, hreach⟩ := hb.bin_of_live he
  rw [hhash] at hreach
  obtain ⟨j, hjm, hjb, -⟩ := hreach.lt_of_blocks hempty
  rcases Nat.lt_or_eq_of_le hjm with hlt | rfl
  · -- the entry's bin was crossed, and its entry did not match
    have hno := hpass j hlt e (by rw [hjb, hbv]; omega)
      (by rw [hjb, hbv, Nat.add_sub_cancel]; exact he.2.2.1)
    rw [hmatch] at hno
    cases hno
  · -- the entry's bin is the empty bin the probe stopped at
    rw [hjb] at hempty
    unfold EmptyAt at hempty
    rw [hbv] at hempty
    cases hempty

/-- **Found.** The shared loop of `find_table_entry_ind` and `find_table_bin_ind` answers a
bin of the array whose value points at a live entry with the key. -/
theorem findBinLoop_eq_some_some (hb : BinsInv tab bins) {ind v : ℕ}
    (h : findBinLoop fuel ty tab bins hv key = some (some (ind, v))) :
    ind < 2 ^ tab.binPower ∧ getBin bins ind = v ∧ entryBase ≤ v ∧
      ∃ e, tab.LiveAt (v - entryBase) e ∧ ptrEqual ty e hv key = true := by
  obtain ⟨m, -, hfound, -⟩ := walk_eq_some.mp h
  rw [probeStep_iterate] at hfound
  obtain ⟨rfl, rfl, hge, e, he, hmatch⟩ := findBinLook_found_some hfound
  exact ⟨probe_fst_lt _ _ _, rfl, hge, e, hb.liveAt_of_getBin hge he, hmatch⟩

/-- **Absent.** When the shared loop answers `UNDEFINED`, no live entry has the key. -/
theorem findBinLoop_eq_some_none (hb : BinsInv tab bins)
    (h : findBinLoop fuel ty tab bins hv key = some none) {i : ℕ} {e : StTableEntry}
    (he : tab.LiveAt i e) : ptrEqual ty e hv key = false := by
  obtain ⟨m, -, hfound, hbefore⟩ := walk_eq_some.mp h
  rw [probeStep_iterate] at hfound
  refine hb.ptrEqual_eq_false_of_probe (findBinLook_found_none hfound) (fun j hj => ?_) he
  have hnext := hbefore j hj
  rw [probeStep_iterate] at hnext
  exact (findBinLook_next hnext).2

/-- `find_table_bin_ind_direct` answers an empty or deleted bin of the array, reached along the
probe sequence before any empty bin. -/
theorem findTableBinIndDirect_eq_some {p : ℕ} {b : ℕ}
    (h : findTableBinIndDirect fuel p bins hv = some b) :
    b < 2 ^ p ∧ getBin bins b < entryBase ∧ ReachedBefore (probeSeq p hv) (EmptyAt bins) b := by
  obtain ⟨m, -, hfound, hbefore⟩ := walk_eq_some.mp h
  rw [probeStep_iterate] at hfound
  obtain ⟨rfl, hlt⟩ := directLook_found hfound
  refine ⟨probe_fst_lt _ _ _, hlt, m, rfl, fun j hj hempty => ?_⟩
  have hnext := hbefore j hj
  rw [probeStep_iterate] at hnext
  have hge := directLook_next hnext
  unfold EmptyAt probeSeq at hempty
  rw [hempty] at hge
  exact absurd hge (by decide)

/-! ## `find_table_bin_ptr_and_reserve` -/

/-- The first deleted bin the reserving loop remembers is one of the bins it crossed. -/
theorem reserveStep_firstDeleted (p : ℕ) (m : ℕ) {d : ℕ}
    (h : ((reserveStep p bins)^[m] ((probe p hv 0).1, (probe p hv 0).2, none)).2.2 = some d) :
    ∃ j < m, probeSeq p hv j = d ∧ getBin bins d = deletedBin := by
  induction m with
  | zero => cases h
  | succ m ih =>
    rw [Function.iterate_succ_apply'] at h
    have hind := congrArg Prod.fst (reserveStep_iterate p hv bins m)
    simp only [reserveStep] at h hind
    split at h
    · -- the bin crossed at step `m` is the first deleted one
      rename_i hnew
      simp only [Bool.and_eq_true, Option.isNone_iff_eq_none, deletedBinP, beq_iff_eq] at hnew
      obtain rfl := Option.some.inj h
      exact ⟨m, Nat.lt_succ_self m, hind.symm, hnew.2⟩
    · obtain ⟨j, hj, hjd, hbin⟩ := ih h
      exact ⟨j, Nat.lt_succ_of_lt hj, hjd, hbin⟩

/-- **Present.** On a key with a live entry the reserving loop answers that entry's bin value
and leaves the table as it was. -/
theorem findTableBinPtrAndReserve_eq_some_some (hb : BinsInv tab bins) {tab' : StTable}
    {v ind : ℕ} (h : findTableBinPtrAndReserve fuel ty tab bins hv key = some (tab', some v, ind)) :
    tab' = tab ∧ ind < 2 ^ tab.binPower ∧ getBin bins ind = v ∧ entryBase ≤ v ∧
      ∃ e, tab.LiveAt (v - entryBase) e ∧ ptrEqual ty e hv key = true := by
  dsimp only [findTableBinPtrAndReserve] at h
  split at h
  · cases h
  · rename_i v' fd ind' hwalk
    cases h
    obtain ⟨m, -, hfound, -⟩ := walk_eq_some.mp hwalk
    have hind := reserveStep_iterate tab.binPower hv bins m
    obtain ⟨rfl, rfl, hge, e, he, hmatch⟩ := reserveLook_found_some hfound
    refine ⟨rfl, ?_, rfl, hge, e, hb.liveAt_of_getBin hge he, hmatch⟩
    rw [congrArg Prod.fst hind]
    exact probe_fst_lt _ _ _
  · cases h
  · cases h

/-- The reserving loop on a key with no live entry stops at an empty bin `x` of the key's probe
sequence, crossing no empty bin before it; the deleted bin it remembers was crossed before
`x`; no live entry has the key. -/
theorem reserveLoop_eq_some_none (hb : BinsInv tab bins) {fd : Option ℕ} {x : ℕ}
    (hwalk : walk (reserveStep tab.binPower bins) (reserveLook ty tab bins hv key) fuel
      ((probe tab.binPower hv 0).1, (probe tab.binPower hv 0).2, none) = some (none, fd, x)) :
    ∃ m, probeSeq tab.binPower hv m = x ∧ EmptyAt bins x ∧
      (∀ j < m, ¬ EmptyAt bins (probeSeq tab.binPower hv j)) ∧
      (∀ d, fd = some d → ∃ j < m, probeSeq tab.binPower hv j = d ∧ getBin bins d = deletedBin) ∧
      ∀ i e, tab.LiveAt i e → ptrEqual ty e hv key = false := by
  obtain ⟨m, -, hfound, hbefore⟩ := walk_eq_some.mp hwalk
  -- the loop's bin index at step `j` is the `j`-th probe
  have hind : ∀ j, ((reserveStep tab.binPower bins)^[j]
      ((probe tab.binPower hv 0).1, (probe tab.binPower hv 0).2, none)).1 =
        probeSeq tab.binPower hv j :=
    fun j => congrArg Prod.fst (reserveStep_iterate tab.binPower hv bins j)
  have hpassed : ∀ j < m, ¬ EmptyAt bins (probeSeq tab.binPower hv j) ∧ ∀ e,
      entryBase ≤ getBin bins (probeSeq tab.binPower hv j) →
        tab.entries[getBin bins (probeSeq tab.binPower hv j) - entryBase]? = some e →
          ptrEqual ty e hv key = false := by
    intro j hj
    have hnext := reserveLook_next (hbefore j hj)
    rwa [hind j] at hnext
  obtain ⟨hempty, rfl, rfl⟩ := reserveLook_found_none hfound
  rw [hind m] at hempty ⊢
  refine ⟨m, rfl, hempty, fun j hj => (hpassed j hj).1, fun d hd => ?_, fun i e he => ?_⟩
  · exact reserveStep_firstDeleted tab.binPower m hd
  · exact hb.ptrEqual_eq_false_of_probe hempty (fun j hj => (hpassed j hj).2) he

/-- **Absent.** On a key with no live entry the reserving loop counts the new entry and answers
a bin `c` of the array that is empty or deleted and is reached along the key's probe sequence
before any empty bin; the bins are unchanged but for `c`, which may be emptied. No live entry
has the key. -/
theorem findTableBinPtrAndReserve_eq_some_none (hb : BinsInv tab bins)
    (hbins : tab.bins = some bins) {tab' : StTable} {c : ℕ}
    (h : findTableBinPtrAndReserve fuel ty tab bins hv key = some (tab', none, c)) :
    (∃ bins', tab' = { tab with numEntries := tab.numEntries + 1, bins := some bins' } ∧
        (bins' = bins ∨ bins' = setBin bins tab.sizeInd c emptyBin)) ∧
      c < 2 ^ tab.binPower ∧ getBin bins c < entryBase ∧
      ReachedBefore (probeSeq tab.binPower hv) (EmptyAt bins) c ∧
      ∀ i e, tab.LiveAt i e → ptrEqual ty e hv key = false := by
  dsimp only [findTableBinPtrAndReserve] at h
  split at h
  · cases h
  · cases h
  · -- a deleted bin was crossed: it is reserved
    rename_i d x hwalk
    cases h
    obtain ⟨m, -, -, hnotempty, hfd, hnone⟩ := reserveLoop_eq_some_none hb hwalk
    obtain ⟨j, hjm, hjd, hdel⟩ := hfd c rfl
    refine ⟨⟨_, rfl, Or.inr rfl⟩, ?_, by rw [hdel]; decide,
      ⟨j, hjd, fun j' hj' => hnotempty j' (by omega)⟩, hnone⟩
    rw [← hjd]
    exact probe_fst_lt _ _ _
  · -- no deleted bin was crossed: the empty bin is reserved
    rename_i hwalk
    cases h
    obtain ⟨m, hmc, hempty, hnotempty, -, hnone⟩ := reserveLoop_eq_some_none hb hwalk
    refine ⟨⟨bins, by rw [← hbins], Or.inl rfl⟩, ?_, ?_, ⟨m, hmc, hnotempty⟩, hnone⟩
    · rw [← hmc]
      exact probe_fst_lt _ _ _
    · unfold EmptyAt at hempty
      rw [hempty]
      decide

end Loops

/-! ## Every bin is on the probe sequence

`secondary_hash` shifts `perterb` right by 11 bits at each step, so a 64-bit hash is used up
after six steps; from then on a step is `ind ↦ (5 * ind + 1) % 2 ^ bin_power`, which meets
every bin (`FullPeriod.exists_iterate_lcgStep_eq`). A search that stops at an empty or deleted
bin therefore stops within `2 ^ bin_power + 5` looks whenever the array has such a bin. -/

section Period

variable {p h : ℕ}

theorem doHash_lt (ty : StHashType) (key : StData) : doHash ty key < 2 ^ 64 := by
  unfold doHash
  dsimp only
  split
  · exact Nat.two_pow_pos 64
  · exact Nat.mod_lt _ (Nat.two_pow_pos 64)

/-- After `k` steps, `perterb` is the hash shifted right by `11 * k` bits. -/
theorem probe_snd (p h k : ℕ) : (probe p h k).2 = h >>> (11 * k) := by
  induction k with
  | zero => rfl
  | succ k ih =>
    rw [probe_succ]
    show (probe p h k).2 >>> 11 = _
    rw [ih, ← Nat.shiftRight_add, Nat.mul_succ]

/-- From the sixth step on, `perterb` of a 64-bit hash is `0`. -/
theorem probe_snd_eq_zero (hh : h < 2 ^ 64) {k : ℕ} (hk : 6 ≤ k) : (probe p h k).2 = 0 := by
  rw [probe_snd, Nat.shiftRight_eq_div_pow]
  exact Nat.div_eq_of_lt (Nat.lt_of_lt_of_le hh (Nat.pow_le_pow_right (by decide) (by omega)))

/-- With `perterb` used up, a step of the probe sequence is `ind ↦ (5 * ind + 1) % 2 ^ p`. -/
theorem probeSeq_succ_of_le (hh : h < 2 ^ 64) (hp : p ≤ 64) {k : ℕ} (hk : 5 ≤ k) :
    probeSeq p h (k + 1) = FullPeriod.lcgStep 5 1 p (probeSeq p h k) := by
  have hzero : (probe p h (k + 1)).2 = 0 := probe_snd_eq_zero hh (by omega)
  have hd : 2 ^ p ∣ 2 ^ 64 := Nat.pow_dvd_pow 2 hp
  unfold probeSeq
  rw [probe_succ] at hzero ⊢
  unfold secondaryHash at hzero ⊢
  dsimp only at hzero ⊢
  rw [hzero, hashBin_eq, FullPeriod.lcgStep, Nat.mod_mod_of_dvd _ hd, Nat.shiftLeft_eq,
    Nat.add_assoc, Nat.add_assoc, Nat.add_mod, Nat.mod_mod_of_dvd _ hd, ← Nat.add_mod]
  congr 1
  omega

/-- From the fifth probe on, the probe sequence is the generator `x ↦ (5 * x + 1) % 2 ^ p`. -/
theorem probeSeq_add_five (hh : h < 2 ^ 64) (hp : p ≤ 64) (n : ℕ) :
    probeSeq p h (5 + n) = (FullPeriod.lcgStep 5 1 p)^[n] (probeSeq p h 5 % 2 ^ p) := by
  induction n with
  | zero => exact (Nat.mod_eq_of_lt (probe_fst_lt p h 5)).symm
  | succ n ih =>
    rw [← Nat.add_assoc, probeSeq_succ_of_le hh hp (by omega), ih, Function.iterate_succ_apply']

/-- **The probe sequence of a 64-bit hash meets every bin** within `2 ^ p + 5` probes. -/
theorem exists_probeSeq_eq (hh : h < 2 ^ 64) (hp : p ≤ 64) {b : ℕ} (hb : b < 2 ^ p) :
    ∃ j < 2 ^ p + 5, probeSeq p h j = b := by
  obtain ⟨n, hn, hnb⟩ :=
    FullPeriod.exists_iterate_lcgStep_eq (show 5 % 4 = 1 by decide) (show 1 % 2 = 1 by decide)
      (probeSeq p h 5) hb
  exact ⟨5 + n, by omega, by rw [probeSeq_add_five hh hp, hnb]⟩

/-- **`find_table_bin_ind_direct` answers** once its fuel covers `2 ^ p + 5` looks, when the
array has an empty or deleted bin. -/
theorem findTableBinIndDirect_isSome {bins : List ℕ} (hh : h < 2 ^ 64) (hp : p ≤ 64) {b : ℕ}
    (hb : b < 2 ^ p) (hfree : getBin bins b < entryBase) {fuel : ℕ} (hfuel : 2 ^ p + 5 ≤ fuel) :
    (findTableBinIndDirect fuel p bins h).isSome := by
  obtain ⟨j, hj, hjb⟩ := exists_probeSeq_eq hh hp hb
  have hnotstuck : ∀ j, directLook bins ((probeStep p)^[j] (probe p h 0)) ≠ .stuck := by
    intro j
    unfold directLook
    split <;> exact fun h => by cases h
  refine walk_isSome_of_decides hnotstuck (m := j) (by omega) ?_
  rw [probeStep_iterate]
  unfold directLook
  rw [if_pos ((emptyOrDeletedBinP_iff _).mpr (by unfold probeSeq at hjb; rw [hjb]; exact hfree))]
  exact fun h => by cases h

/-- **A bin is free** (empty or deleted) when the live entries are fewer than the bins: the
bins holding entry indices point at distinct live slots. -/
theorem BinsInv.exists_free {bins : List ℕ} (hb : BinsInv tab bins)
    (hlt : (liveSlots tab).length < 2 ^ tab.binPower) :
    ∃ b < 2 ^ tab.binPower, getBin bins b < entryBase := by
  by_contra hnone
  simp only [not_exists, not_and, not_lt] at hnone
  -- every bin points at a live slot, and no two at the same one
  have hmaps : ∀ b ∈ Finset.range (2 ^ tab.binPower),
      getBin bins b - entryBase ∈ (liveSlots tab).toFinset := by
    intro b hb'
    obtain ⟨e, he, -⟩ := hb.bin_live b (hnone b (Finset.mem_range.mp hb'))
    exact List.mem_toFinset.mpr (mem_liveSlots.mpr ⟨e, he⟩)
  have hinj : Set.InjOn (fun b => getBin bins b - entryBase) (Finset.range (2 ^ tab.binPower)) := by
    intro b₁ hb₁ b₂ hb₂ heq
    rw [Finset.coe_range, Set.mem_Iio] at hb₁ hb₂
    have hge₁ := hnone b₁ hb₁
    have hge₂ := hnone b₂ hb₂
    obtain ⟨e, he, -⟩ := hb.bin_live b₁ hge₁
    obtain ⟨b, -, huniq⟩ := hb.entry_bin _ e he
    have h₁ := huniq b₁ ⟨hb₁, by omega⟩
    have h₂ := huniq b₂ ⟨hb₂, by simp only at heq; omega⟩
    rw [h₁, h₂]
  have hcard := Finset.card_le_card_of_injOn _ hmaps hinj
  rw [Finset.card_range, ← length_liveSlots] at hcard
  omega

end Period

/-! ## The searches that stop only at an empty bin

`find_table_entry_ind`, `find_table_bin_ind` and `find_table_bin_ptr_and_reserve` pass deleted
bins and stop at an empty bin or at a matching entry. On a table that keeps its bins invariant
no look is stuck, so they answer as soon as the probe sequence meets an empty bin, which it
does within `2 ^ bin_power + 5` probes. -/

section Empty

variable {bins : List ℕ} {hv : ℕ} {key : StData}

/-- A live bin of a table that keeps its bins invariant points into the entries array. -/
theorem BinsInv.findBinLook_ne_stuck (hb : BinsInv tab bins) (s : ℕ × ℕ) :
    findBinLook ty tab bins hv key s ≠ .stuck := by
  unfold findBinLook
  dsimp only
  split_ifs with hed
  · exact fun h => by cases h
  · exact fun h => by cases h
  · -- a live bin: its entry is in the array
    rw [emptyOrDeletedBinP_iff, not_lt] at hed
    obtain ⟨e, he, -⟩ := hb.bin_live _ hed
    rw [he.2.2.1]
    dsimp only
    split_ifs <;> exact fun h => by cases h

theorem BinsInv.reserveLook_ne_stuck (hb : BinsInv tab bins) (s : ℕ × ℕ × Option ℕ) :
    reserveLook ty tab bins hv key s ≠ .stuck := by
  unfold reserveLook
  dsimp only
  split_ifs with hempty hlive
  · exact fun h => by cases h
  · -- neither empty nor deleted: a live bin, whose entry is in the array
    have hge : entryBase ≤ getBin bins s.1 := by
      simp only [emptyBinP, deletedBinP, emptyBin, deletedBin, beq_iff_eq, Bool.not_eq_true',
        beq_eq_false_iff_ne] at hempty hlive
      unfold entryBase
      omega
    obtain ⟨e, he, -⟩ := hb.bin_live _ hge
    rw [he.2.2.1]
    dsimp only
    split_ifs <;> exact fun h => by cases h
  · exact fun h => by cases h

theorem findBinLook_of_emptyAt {s : ℕ × ℕ} (he : EmptyAt bins s.1) :
    findBinLook ty tab bins hv key s = .found none := by
  unfold EmptyAt at he
  rw [findBinLook, he]
  rfl

theorem reserveLook_of_emptyAt {s : ℕ × ℕ × Option ℕ} (he : EmptyAt bins s.1) :
    reserveLook ty tab bins hv key s = .found (none, s.2.2, s.1) := by
  unfold EmptyAt at he
  rw [reserveLook, he]
  rfl

variable {fuel : ℕ} (hb : BinsInv tab bins) (hh : hv < 2 ^ 64) (hp : tab.binPower ≤ 64) {b : ℕ}
  (hbl : b < 2 ^ tab.binPower) (hempty : EmptyAt bins b) (hfuel : 2 ^ tab.binPower + 5 ≤ fuel)
include hb hh hp hbl hempty hfuel

/-- **The lookup loop answers** once its fuel covers `2 ^ bin_power + 5` looks, when the array
has an empty bin. -/
theorem findBinLoop_isSome : (findBinLoop fuel ty tab bins hv key).isSome := by
  obtain ⟨j, hj, hjb⟩ := exists_probeSeq_eq hh hp hbl
  refine walk_isSome_of_decides (fun i => hb.findBinLook_ne_stuck _) (m := j) (by omega) ?_
  rw [probeStep_iterate, findBinLook_of_emptyAt (by unfold probeSeq at hjb; rw [hjb]; exact hempty)]
  exact fun h => by cases h

/-- **The reserving search answers** once its fuel covers `2 ^ bin_power + 5` looks, when the
array has an empty bin. -/
theorem findTableBinPtrAndReserve_isSome :
    (findTableBinPtrAndReserve fuel ty tab bins hv key).isSome := by
  obtain ⟨j, hj, hjb⟩ := exists_probeSeq_eq hh hp hbl
  -- the reserving loop's index follows the probe sequence
  have hind : ((reserveStep tab.binPower bins)^[j]
      ((probe tab.binPower hv 0).1, (probe tab.binPower hv 0).2, none)).1 =
      probeSeq tab.binPower hv j :=
    congrArg Prod.fst (reserveStep_iterate _ _ bins j)
  have hwalk : (walk (reserveStep tab.binPower bins) (reserveLook ty tab bins hv key) fuel
      ((probe tab.binPower hv 0).1, (probe tab.binPower hv 0).2, none)).isSome := by
    refine walk_isSome_of_decides (fun i => hb.reserveLook_ne_stuck _) (m := j) (by omega) ?_
    rw [reserveLook_of_emptyAt (by rw [hind, hjb]; exact hempty)]
    exact fun h => by cases h
  obtain ⟨r, hr⟩ := Option.isSome_iff_exists.mp hwalk
  unfold findTableBinPtrAndReserve
  dsimp only
  rw [hr]
  obtain ⟨_ | v, _ | d, ind⟩ := r <;> rfl

end Empty

/-- **The probe sequence meets every bin**, for every `bin_power` a 64-bit `st_index_t` can
mask and every hash value, within `2 ^ bin_power + 5` probes; so the searches that stop only at
an empty bin stop, on a table that keeps its bins invariant, whenever the array has one. -/
theorem probe_meets_every_bin {p h : ℕ} (hp : p ≤ 64) (hh : h < 2 ^ 64) :
    (∀ b < 2 ^ p, ∃ j < 2 ^ p + 5, probeSeq p h j = b) ∧
    ∀ (ty : StHashType) (tab : StTable) (bins : List ℕ) (key : StData) (fuel : ℕ),
      tab.binPower = p → BinsInv tab bins → (∃ b < 2 ^ p, EmptyAt bins b) → 2 ^ p + 5 ≤ fuel →
      (findBinLoop fuel ty tab bins h key).isSome ∧
        (findTableBinPtrAndReserve fuel ty tab bins h key).isSome := by
  refine ⟨fun b hb => exists_probeSeq_eq hh hp hb, ?_⟩
  rintro ty tab bins key fuel rfl hbins ⟨b, hbl, hempty⟩ hfuel
  exact ⟨findBinLoop_isSome hbins hh hp hbl hempty hfuel,
    findTableBinPtrAndReserve_isSome hbins hh hp hbl hempty hfuel⟩

/-- Four bins and the hash `7`: the last bin is met within nine probes. -/
theorem probe_meets_every_bin_four : 2 ≤ 64 ∧ 7 < 2 ^ 64 ∧ ∃ j < 2 ^ 2 + 5, probeSeq 2 7 j = 3 :=
  ⟨by decide, by decide, (probe_meets_every_bin (by decide) (by decide)).1 3 (by decide)⟩

end CRuby.St
