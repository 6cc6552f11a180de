import CRuby.St.Search

/-!
# `st.c`: what the writes do to the invariant

The operations change a table by a few kinds of writes: an entry appended with its bin, an
entry marked deleted with its bin, an entry whose record (or key, for an `EQUAL` one) is
replaced, the range reset, the table emptied. Each kind is described once by what it does to
the live slots, and carries `BinsInv` and `Inv` across:

* `BinsInv.of_liveAt`: a change that keeps the live slots and their hashes keeps the bins
  valid;
* `BinsInv.insert`: a new live slot whose bin is an empty or deleted bin reached along its
  probe sequence before any empty bin;
* `BinsInv.delete`: a slot deleted together with its bin, which becomes `DELETED_BIN`;
* `Inv.append`, `Inv.delete`, `Inv.modifyEntry`, `Inv.reset`, `Inv.makeEmpty`: the
  whole invariant across the writes of the operations.
-/

namespace CRuby.St

open Probing

variable {ty : StHashType} {tab tab' : StTable}

/-! ## Bins -/

/-- The widest value a table stores in a bin, `ENTRY_BASE` plus its last entry index, fits the
bin width `features[entry_power].size_ind` gives. -/
theorem entry_fits_bin {ep : ℕ} (hep : ep ≤ maxPower2) {n : ℕ} (hn : n < 2 ^ ep) :
    n + entryBase < 2 ^ (8 <<< (getFeatures ep).sizeInd) := by
  have hfit : ∀ ep < maxPower2 + 1, 2 ^ ep + entryBase ≤ 2 ^ (8 <<< (getFeatures ep).sizeInd) := by
    decide
  have := hfit ep (Nat.lt_succ_of_le hep)
  omega

theorem deletedBin_lt_width (s : ℕ) : deletedBin < 2 ^ (8 <<< s) := by
  have h8 : 0 < 8 <<< s := by
    rw [Nat.shiftLeft_eq]
    exact Nat.mul_pos (by decide) (Nat.two_pow_pos s)
  exact Nat.one_lt_two_pow (Nat.ne_of_gt h8)

theorem setBin_setBin_self (bins : List ℕ) (s n v w : ℕ) :
    setBin (setBin bins s n v) s n w = setBin bins s n w := by
  simp [setBin]

section Bins

variable {bins : List ℕ}

/-- **Same live slots.** A change that keeps which slots are live, and the hash of each live
entry, keeps the bins valid. -/
theorem BinsInv.of_liveAt (hb : BinsInv tab bins) (hp : tab'.binPower = tab.binPower)
    (hold : ∀ i e', tab'.LiveAt i e' → ∃ e, tab.LiveAt i e ∧ e.hash = e'.hash)
    (hnew : ∀ i e, tab.LiveAt i e → ∃ e', tab'.LiveAt i e') : BinsInv tab' bins where
  length_eq := hp ▸ hb.length_eq
  bin_live b hge := by
    obtain ⟨e, he, hreach⟩ := hb.bin_live b hge
    obtain ⟨e', he'⟩ := hnew _ e he
    obtain ⟨e'', he'', hhash⟩ := hold _ e' he'
    obtain rfl := he.unique he''
    exact ⟨e', he', by rw [hp, ← hhash]; exact hreach⟩
  entry_bin i e' he' := by
    obtain ⟨e, he, -⟩ := hold i e' he'
    rw [hp]
    exact hb.entry_bin i e he

/-- **Insertion.** A new live slot `n` whose bin `c` is empty or deleted and is reached along
the entry's probe sequence before any empty bin. -/
theorem BinsInv.insert (hb : BinsInv tab bins) (hp : tab'.binPower = tab.binPower) {n : ℕ}
    {e₀ : StTableEntry} (hn : ∀ e, ¬ tab.LiveAt n e)
    (hlive : ∀ i e, tab'.LiveAt i e ↔ tab.LiveAt i e ∨ (i = n ∧ e = e₀))
    {c : ℕ} (hc : c < 2 ^ tab.binPower) (hcv : getBin bins c < entryBase)
    (hreach : ReachedBefore (probeSeq tab.binPower e₀.hash) (EmptyAt bins) c)
    {s : ℕ} (hfit : n + entryBase < 2 ^ (8 <<< s)) :
    BinsInv tab' (setBin bins s c (n + entryBase)) := by
  have h2 := entryBase_eq
  have hcl : c < bins.length := hb.length_eq ▸ hc
  have hgetc : getBin (setBin bins s c (n + entryBase)) c = n + entryBase := by
    rw [getBin_setBin_self hcl, Nat.mod_eq_of_lt hfit]
  have hgetne : ∀ b, b ≠ c → getBin (setBin bins s c (n + entryBase)) b = getBin bins b :=
    fun b hbc => getBin_setBin_ne bins hbc s _
  -- the write only removes an empty-or-deleted bin, so no new bin blocks a probe
  have hblocks : ∀ b, EmptyAt (setBin bins s c (n + entryBase)) b → EmptyAt bins b := by
    intro b hempty
    unfold EmptyAt at hempty ⊢
    by_cases hbc : b = c
    · subst hbc
      rw [hgetc] at hempty
      simp [entryBase, emptyBin] at hempty
    · rwa [hgetne b hbc] at hempty
  refine ⟨by rw [length_setBin, hb.length_eq, hp], fun b hge => ?_, fun i e he => ?_⟩
  · -- `bin_live`
    by_cases hbc : b = c
    · subst hbc
      rw [hgetc, Nat.add_sub_cancel]
      exact ⟨e₀, (hlive n e₀).mpr (.inr ⟨rfl, rfl⟩), by rw [hp]; exact hreach.mono hblocks⟩
    · rw [hgetne b hbc] at hge ⊢
      obtain ⟨e, he, hr⟩ := hb.bin_live b hge
      exact ⟨e, (hlive _ e).mpr (.inl he), by rw [hp]; exact hr.mono hblocks⟩
  · -- `entry_bin`
    rw [hp]
    rcases (hlive i e).mp he with hold | ⟨rfl, rfl⟩
    · obtain ⟨b, ⟨hblt, hbv⟩, huniq⟩ := hb.entry_bin i e hold
      have hbc : b ≠ c := by
        rintro rfl
        rw [hbv] at hcv
        omega
      refine ⟨b, ⟨hblt, by rw [hgetne b hbc, hbv]⟩, fun b' hb' => ?_⟩
      obtain ⟨hb'lt, hb'v⟩ := hb'
      by_cases hb'c : b' = c
      · subst hb'c
        rw [hgetc, Nat.add_right_cancel_iff] at hb'v
        subst hb'v
        exact absurd hold (hn e)
      · exact huniq b' ⟨hb'lt, by rwa [hgetne b' hb'c] at hb'v⟩
    · refine ⟨c, ⟨hc, hgetc⟩, fun b' hb' => ?_⟩
      obtain ⟨-, hb'v⟩ := hb'
      by_contra hb'c
      rw [hgetne b' hb'c] at hb'v
      obtain ⟨e', he', -⟩ := hb.bin_live b' (by rw [hb'v]; omega)
      rw [hb'v, Nat.add_sub_cancel] at he'
      exact hn e' he'

/-- **Deletion.** Slot `n` stops being live and its bin `b₀` becomes `DELETED_BIN`. -/
theorem BinsInv.delete (hb : BinsInv tab bins) (hp : tab'.binPower = tab.binPower) {n : ℕ}
    {e₀ : StTableEntry} (hn : tab.LiveAt n e₀)
    (hlive : ∀ i e, tab'.LiveAt i e ↔ tab.LiveAt i e ∧ i ≠ n)
    {b₀ : ℕ} (hb₀ : getBin bins b₀ = n + entryBase) (s : ℕ) :
    BinsInv tab' (setBin bins s b₀ deletedBin) := by
  have h2 := entryBase_eq
  have hb₀l : b₀ < bins.length := lt_of_getBin_ne_zero (by rw [hb₀]; omega)
  have hget₀ : getBin (setBin bins s b₀ deletedBin) b₀ = deletedBin := by
    rw [getBin_setBin_self hb₀l, Nat.mod_eq_of_lt (deletedBin_lt_width s)]
  have hgetne : ∀ b, b ≠ b₀ → getBin (setBin bins s b₀ deletedBin) b = getBin bins b :=
    fun b hb => getBin_setBin_ne bins hb s _
  -- a live bin turned deleted: the empty bins do not change
  have hblocks : ∀ b, EmptyAt (setBin bins s b₀ deletedBin) b → EmptyAt bins b := by
    intro b hempty
    unfold EmptyAt at hempty ⊢
    by_cases hbb : b = b₀
    · subst hbb
      rw [hget₀] at hempty
      cases hempty
    · rwa [hgetne b hbb] at hempty
  -- the only bin holding `n` is `b₀`
  have honly : ∀ b, b < 2 ^ tab.binPower → getBin bins b = n + entryBase → b = b₀ := by
    obtain ⟨b, -, huniq⟩ := hb.entry_bin n e₀ hn
    intro b' hb'lt hb'v
    rw [huniq b' ⟨hb'lt, hb'v⟩, huniq b₀ ⟨hb.length_eq ▸ hb₀l, hb₀⟩]
  refine ⟨by rw [length_setBin, hb.length_eq, hp], fun b hge => ?_, fun i e he => ?_⟩
  · -- `bin_live`
    have hbb : b ≠ b₀ := by
      rintro rfl
      rw [hget₀] at hge
      exact absurd hge (by decide)
    rw [hgetne b hbb] at hge ⊢
    obtain ⟨e, he, hr⟩ := hb.bin_live b hge
    have hne : getBin bins b - entryBase ≠ n := by
      intro heq
      have hbl : b < 2 ^ tab.binPower :=
        hb.length_eq ▸ lt_of_getBin_ne_zero (by omega)
      exact hbb (honly b hbl (by omega))
    exact ⟨e, (hlive _ e).mpr ⟨he, hne⟩, by rw [hp]; exact hr.mono hblocks⟩
  · -- `entry_bin`
    rw [hp]
    obtain ⟨hold, hin⟩ := (hlive i e).mp he
    obtain ⟨b, ⟨hblt, hbv⟩, huniq⟩ := hb.entry_bin i e hold
    have hbb : b ≠ b₀ := by
      rintro rfl
      rw [hb₀] at hbv
      omega
    refine ⟨b, ⟨hblt, by rw [hgetne b hbb, hbv]⟩, fun b' ⟨hb'lt, hb'v⟩ => ?_⟩
    have hb'b : b' ≠ b₀ := by
      rintro rfl
      rw [hget₀] at hb'v
      simp [deletedBin, entryBase] at hb'v
    exact huniq b' ⟨hb'lt, by rwa [hgetne b' hb'b] at hb'v⟩

/-- Fresh bins are valid for a table with no live slot. -/
theorem BinsInv.initializeBins (hnone : ∀ i e, ¬ tab.LiveAt i e) :
    BinsInv tab (initializeBins tab.binPower) where
  length_eq := length_initializeBins _
  bin_live b hge := by
    rw [getBin_initializeBins] at hge
    exact absurd hge (by decide)
  entry_bin i e he := absurd he (hnone i e)

end Bins

/-! ## Live slots after a write -/

section LiveSlots

variable {i n : ℕ} {e : StTableEntry}

/-- A write that keeps the range and the entries keeps the live slots. -/
theorem liveAt_congr (hs : tab'.entriesStart = tab.entriesStart)
    (hb : tab'.entriesBound = tab.entriesBound) (he : tab'.entries = tab.entries) :
    tab'.LiveAt i e ↔ tab.LiveAt i e := by
  unfold StTable.LiveAt
  rw [hs, hb, he]

/-- `entries[entries_bound++] = e₀` makes one more slot live. -/
theorem liveAt_append_iff (hlen : tab.entries.length = tab.entriesBound)
    (hsb : tab.entriesStart ≤ tab.entriesBound) {e₀ : StTableEntry}
    (hdel : deletedEntryP e₀ = false) (hs : tab'.entriesStart = tab.entriesStart)
    (hb : tab'.entriesBound = tab.entriesBound + 1) (he : tab'.entries = tab.entries ++ [e₀]) :
    tab'.LiveAt i e ↔ tab.LiveAt i e ∨ (i = tab.entriesBound ∧ e = e₀) := by
  unfold StTable.LiveAt
  rw [hs, hb, he]
  by_cases hi : i < tab.entriesBound
  · rw [List.getElem?_append_left (hlen ▸ hi)]
    constructor
    · rintro ⟨h1, -, h3, h4⟩
      exact .inl ⟨h1, hi, h3, h4⟩
    · rintro (⟨h1, -, h3, h4⟩ | ⟨rfl, -⟩)
      · exact ⟨h1, by omega, h3, h4⟩
      · omega
  · have hlast : (tab.entries ++ [e₀])[tab.entriesBound]? = some e₀ := by
      rw [List.getElem?_append_right (by omega), hlen, Nat.sub_self]
      rfl
    constructor
    · rintro ⟨-, h2, h3, -⟩
      obtain rfl : i = tab.entriesBound := by omega
      rw [hlast] at h3
      exact .inr ⟨rfl, (Option.some.inj h3).symm⟩
    · rintro (⟨-, h2, -, -⟩ | ⟨rfl, rfl⟩)
      · omega
      · exact ⟨hsb, by omega, hlast, hdel⟩

theorem liveAt_modifyEntry_ne {f : StTableEntry → StTableEntry} (hi : i ≠ n) :
    (tab.modifyEntry n f).LiveAt i e ↔ tab.LiveAt i e := by
  unfold StTable.LiveAt StTable.modifyEntry
  simp only [List.getElem?_modify, Ne.symm hi, if_false, id_map']

theorem liveAt_modifyEntry_self {f : StTableEntry → StTableEntry} :
    (tab.modifyEntry n f).LiveAt n e ↔ tab.entriesStart ≤ n ∧ n < tab.entriesBound ∧
      ∃ e₀, tab.entries[n]? = some e₀ ∧ f e₀ = e ∧ deletedEntryP (f e₀) = false := by
  unfold StTable.LiveAt StTable.modifyEntry
  simp only [List.getElem?_modify, if_true, Option.map_eq_map, Option.map_eq_some_iff]
  constructor
  · rintro ⟨h1, h2, ⟨e₀, he₀, rfl⟩, h4⟩
    exact ⟨h1, h2, e₀, he₀, rfl, h4⟩
  · rintro ⟨h1, h2, e₀, he₀, rfl, h4⟩
    exact ⟨h1, h2, ⟨e₀, he₀, rfl⟩, h4⟩

/-- Replacing an entry by one with the same hash keeps which slots are live. -/
theorem liveAt_modifyEntry_iff {f : StTableEntry → StTableEntry}
    (hf : ∀ e, (f e).hash = e.hash) :
    (tab.modifyEntry n f).LiveAt i e ↔
      (i ≠ n ∧ tab.LiveAt i e) ∨ (i = n ∧ ∃ e₀, tab.LiveAt n e₀ ∧ f e₀ = e) := by
  by_cases hi : i = n
  · subst hi
    rw [liveAt_modifyEntry_self]
    have hdel : ∀ e₀, deletedEntryP (f e₀) = deletedEntryP e₀ := by
      intro e₀
      simp only [deletedEntryP, hf]
    constructor
    · rintro ⟨h1, h2, e₀, he₀, rfl, h4⟩
      exact .inr ⟨rfl, e₀, ⟨h1, h2, he₀, by rwa [← hdel]⟩, rfl⟩
    · rintro (⟨hne, -⟩ | ⟨-, e₀, ⟨h1, h2, he₀, h4⟩, rfl⟩)
      · exact absurd rfl hne
      · exact ⟨h1, h2, e₀, he₀, rfl, by rwa [hdel]⟩
  · rw [liveAt_modifyEntry_ne hi]
    constructor
    · intro h
      exact .inl ⟨hi, h⟩
    · rintro (⟨-, h⟩ | ⟨h, -⟩)
      · exact h
      · exact absurd h hi

/-- `MARK_ENTRY_DELETED` on slot `n`. -/
theorem liveAt_markEntryDeleted_iff :
    (tab.modifyEntry n markEntryDeleted).LiveAt i e ↔ tab.LiveAt i e ∧ i ≠ n := by
  by_cases hi : i = n
  · subst hi
    rw [liveAt_modifyEntry_self]
    simp
  · rw [liveAt_modifyEntry_ne hi]
    exact ⟨fun h => ⟨h, hi⟩, fun h => h.1⟩

/-- `update_range_for_deleted` only moves the start past a slot that is not live. -/
theorem liveAt_updateRangeForDeleted (hn : ∀ e, ¬ tab.LiveAt n e) :
    (updateRangeForDeleted tab n).LiveAt i e ↔ tab.LiveAt i e := by
  unfold updateRangeForDeleted
  split
  · rename_i hs
    unfold StTable.LiveAt
    constructor
    · rintro ⟨h1, h2, h3, h4⟩
      exact ⟨by simp only at h1; omega, h2, h3, h4⟩
    · rintro ⟨h1, h2, h3, h4⟩
      refine ⟨?_, h2, h3, h4⟩
      simp only
      by_contra hlt
      obtain rfl : i = n := by omega
      exact hn e ⟨h1, h2, h3, h4⟩
  · exact Iff.rfl

theorem deleteEntryAt_fields (tab : StTable) (binInd : Option ℕ) (n : ℕ) :
    (deleteEntryAt tab binInd n).entryPower = tab.entryPower ∧
    (deleteEntryAt tab binInd n).binPower = tab.binPower ∧
    (deleteEntryAt tab binInd n).sizeInd = tab.sizeInd ∧
    (deleteEntryAt tab binInd n).numEntries = tab.numEntries - 1 ∧
    (deleteEntryAt tab binInd n).entriesBound = tab.entriesBound ∧
    (deleteEntryAt tab binInd n).entries = tab.entries.modify n markEntryDeleted ∧
    (deleteEntryAt tab binInd n).bins =
      (match binInd with
       | some b => tab.bins.map fun bins => setBin bins tab.sizeInd b deletedBin
       | none => tab.bins) := by
  unfold deleteEntryAt updateRangeForDeleted
  cases binInd <;> dsimp only <;> split <;> exact ⟨rfl, rfl, rfl, rfl, rfl, rfl, rfl⟩

theorem deleteEntryAt_entriesStart (tab : StTable) (binInd : Option ℕ) (n : ℕ) :
    (deleteEntryAt tab binInd n).entriesStart =
      if tab.entriesStart = n then n + 1 else tab.entriesStart := by
  by_cases hs : tab.entriesStart = n <;>
    cases binInd <;>
    simp [deleteEntryAt, updateRangeForDeleted, StTable.modifyEntry, StTable.setBinAt, hs]

/-- Deleting slot `n` leaves every other live slot live. -/
theorem liveAt_deleteEntryAt_iff (binInd : Option ℕ) :
    (deleteEntryAt tab binInd n).LiveAt i e ↔ tab.LiveAt i e ∧ i ≠ n := by
  have hmark : ∀ t : StTable, t.entriesStart = tab.entriesStart →
      t.entriesBound = tab.entriesBound → t.entries = tab.entries →
      ((updateRangeForDeleted { t.modifyEntry n markEntryDeleted with
          numEntries := t.numEntries - 1 } n).LiveAt i e ↔ tab.LiveAt i e ∧ i ≠ n) := by
    intro t hs hb he
    rw [liveAt_updateRangeForDeleted]
    · change (t.modifyEntry n markEntryDeleted).LiveAt i e ↔ _
      rw [liveAt_markEntryDeleted_iff, liveAt_congr hs hb he]
    · intro e' he'
      have : t.LiveAt n e' ∧ n ≠ n := liveAt_markEntryDeleted_iff.mp he'
      exact this.2 rfl
  unfold deleteEntryAt
  cases binInd with
  | none => exact hmark tab rfl rfl rfl
  | some b => exact hmark _ rfl rfl rfl

end LiveSlots

/-! ## The invariant across the writes -/

section Writes

/-- **Append.** A new entry for a key no live entry has, stored with its key's hash, into a
table with room for it; its bin, when the table has bins, is an empty or deleted bin reached
along its probe sequence before any empty bin. -/
theorem Inv.append (hinv : Inv ty tab) {e₀ : StTableEntry} (hhash : e₀.hash = doHash ty e₀.key)
    (hapart : ∀ i e, tab.LiveAt i e → KeysApart ty e₀ e)
    (hroom : tab.entriesBound < 2 ^ tab.entryPower) {bins' : Option (List ℕ)}
    (hbins : ∀ bins, tab.bins = some bins → ∃ c, c < 2 ^ tab.binPower ∧
      getBin bins c < entryBase ∧ ReachedBefore (probeSeq tab.binPower e₀.hash) (EmptyAt bins) c ∧
      bins' = some (setBin bins tab.sizeInd c (tab.entriesBound + entryBase)))
    (hnone : tab.bins = none → bins' = none) :
    Inv ty { tab with numEntries := tab.numEntries + 1, entriesBound := tab.entriesBound + 1,
                      entries := tab.entries ++ [e₀], bins := bins' } := by
  have hdel : deletedEntryP e₀ = false := by
    simp only [deletedEntryP, hhash, beq_eq_false_iff_ne]
    exact doHash_ne_reserved ty _
  have hlive : ∀ i e,
      StTable.LiveAt { tab with numEntries := tab.numEntries + 1, bins := bins',
                                entriesBound := tab.entriesBound + 1,
                                entries := tab.entries ++ [e₀] } i e ↔
        tab.LiveAt i e ∨ (i = tab.entriesBound ∧ e = e₀) :=
    fun i e => liveAt_append_iff hinv.length_entries hinv.start_le_bound hdel rfl rfl rfl
  have hnot : ∀ e, ¬ tab.LiveAt tab.entriesBound e := fun e he => Nat.lt_irrefl _ he.2.1
  refine ⟨hinv.entryPower_ge, hinv.entryPower_le, hinv.binPower_eq, hinv.sizeInd_eq,
    Nat.le_succ_of_le hinv.start_le_bound, hroom, by simp [hinv.length_entries], ?_, ?_, ?_,
    ?_, ?_⟩
  · -- `num_entries`: one more live slot
    show tab.numEntries + 1 = _
    rw [length_liveSlots_of_iff_insert hnot, hinv.numEntries_eq]
    intro i
    constructor
    · rintro ⟨e, he⟩
      rcases (hlive i e).mp he with h | ⟨rfl, -⟩
      · exact .inl ⟨e, h⟩
      · exact .inr rfl
    · rintro (⟨e, he⟩ | rfl)
      · exact ⟨e, (hlive i e).mpr (.inl he)⟩
      · exact ⟨e₀, (hlive _ e₀).mpr (.inr ⟨rfl, rfl⟩)⟩
  · -- `bins == NULL`
    show bins' = none ↔ _
    rw [← hinv.bins_none_iff]
    rcases hb : tab.bins with - | bins
    · simp [hnone hb]
    · obtain ⟨c, -, -, -, rfl⟩ := hbins bins hb
      simp
  · -- the bins
    intro B hB
    rcases hb : tab.bins with - | bins
    · rw [hnone hb] at hB
      cases hB
    · obtain ⟨c, hc, hcv, hreach, rfl⟩ := hbins bins hb
      obtain rfl := Option.some.inj hB
      have hfit := entry_fits_bin hinv.entryPower_le hroom
      rw [← hinv.sizeInd_eq] at hfit
      refine (hinv.bins_inv bins hb).insert ?_ hnot hlive hc hcv hreach hfit
      rfl
  · -- hashes
    intro i e he
    rcases (hlive i e).mp he with h | ⟨-, rfl⟩
    · exact hinv.hash_eq i e h
    · exact hhash
  · -- keys
    intro i j e e' he he' hij
    rcases (hlive i e).mp he with h | ⟨rfl, rfl⟩ <;>
      rcases (hlive j e').mp he' with h' | ⟨rfl, rfl⟩
    · exact hinv.keys_apart i j e e' h h' hij
    · exact (hapart i e h).symm
    · exact hapart j e' h'
    · exact absurd rfl hij

/-- **Delete.** Slot `n` is live; `bin_ind` is its bin when the table has bins. -/
theorem Inv.delete (hinv : Inv ty tab) {n : ℕ} {e₀ : StTableEntry} (hn : tab.LiveAt n e₀)
    {binInd : Option ℕ}
    (hbin : ∀ bins, tab.bins = some bins → ∃ b, binInd = some b ∧ getBin bins b = n + entryBase)
    (hnone : tab.bins = none → binInd = none) : Inv ty (deleteEntryAt tab binInd n) := by
  obtain ⟨hep, hbp, hsi, hnum, hbound, hentries, hbins⟩ := deleteEntryAt_fields tab binInd n
  have hstart := deleteEntryAt_entriesStart tab binInd n
  have hlive : ∀ i e, (deleteEntryAt tab binInd n).LiveAt i e ↔ tab.LiveAt i e ∧ i ≠ n :=
    fun i e => liveAt_deleteEntryAt_iff binInd
  have hcount : (liveSlots (deleteEntryAt tab binInd n)).length + 1 = (liveSlots tab).length :=
    length_liveSlots_of_iff_erase hn fun i =>
      ⟨fun ⟨e, he⟩ => ⟨⟨e, ((hlive i e).mp he).1⟩, ((hlive i e).mp he).2⟩,
        fun ⟨⟨e, he⟩, hi⟩ => ⟨e, (hlive i e).mpr ⟨he, hi⟩⟩⟩
  have hnb := hn.2.1
  refine ⟨hep ▸ hinv.entryPower_ge, hep ▸ hinv.entryPower_le, by rw [hbp, hep, hinv.binPower_eq],
    by rw [hsi, hep, hinv.sizeInd_eq], ?_, by rw [hbound, hep]; exact hinv.bound_le,
    by rw [hentries, List.length_modify, hbound, hinv.length_entries], ?_, ?_, ?_, ?_, ?_⟩
  · have hsb := hinv.start_le_bound
    rw [hstart, hbound]
    split <;> omega
  · -- `num_entries`: one live slot fewer
    rw [hnum, hinv.numEntries_eq]
    omega
  · -- `bins == NULL`
    rw [hbins, hep, ← hinv.bins_none_iff]
    rcases hb : tab.bins with - | bins
    · rw [hnone hb]
    · obtain ⟨b, rfl, -⟩ := hbin bins hb
      simp
  · -- the bins: the entry's bin becomes `DELETED_BIN`
    intro B hB
    rw [hbins] at hB
    rcases hb : tab.bins with - | bins
    · rw [hnone hb, hb] at hB
      cases hB
    · obtain ⟨b, rfl, hbv⟩ := hbin bins hb
      rw [hb] at hB
      obtain rfl := Option.some.inj hB
      exact (hinv.bins_inv bins hb).delete hbp hn hlive hbv tab.sizeInd
  · intro i e he
    exact hinv.hash_eq i e ((hlive i e).mp he).1
  · intro i j e e' he he' hij
    exact hinv.keys_apart i j e e' ((hlive i e).mp he).1 ((hlive j e').mp he').1 hij

/-- **Modify.** The entry of live slot `n` is replaced by one with the same hash and an
`EQUAL` key (a new record, or the key `st_update`'s callback returned). -/
theorem Inv.modifyEntry (hinv : Inv ty tab) (hty : LawfulHashType ty) {n : ℕ}
    {e₀ : StTableEntry} (hn : tab.LiveAt n e₀) {f : StTableEntry → StTableEntry}
    (hf : ∀ e, (f e).hash = e.hash) (hkey : stEqual ty e₀.key (f e₀).key = true) :
    Inv ty (tab.modifyEntry n f) := by
  have hlive : ∀ i e, (tab.modifyEntry n f).LiveAt i e ↔
      (i ≠ n ∧ tab.LiveAt i e) ∨ (i = n ∧ ∃ e₁, tab.LiveAt n e₁ ∧ f e₁ = e) :=
    fun i e => liveAt_modifyEntry_iff hf
  -- the new entry of slot `n` is `f e₀`
  have hnew : ∀ i e, (tab.modifyEntry n f).LiveAt i e →
      (i ≠ n ∧ tab.LiveAt i e) ∨ (i = n ∧ e = f e₀) := by
    intro i e he
    rcases (hlive i e).mp he with h | ⟨rfl, e₁, he₁, rfl⟩
    · exact .inl h
    · exact .inr ⟨rfl, by rw [hn.unique he₁]⟩
  have hsame : ∀ i, (∃ e, (tab.modifyEntry n f).LiveAt i e) ↔ ∃ e, tab.LiveAt i e := by
    intro i
    constructor
    · rintro ⟨e, he⟩
      rcases hnew i e he with ⟨-, h⟩ | ⟨rfl, -⟩
      · exact ⟨e, h⟩
      · exact ⟨e₀, hn⟩
    · rintro ⟨e, he⟩
      by_cases hi : i = n
      · subst hi
        exact ⟨f e₀, (hlive i _).mpr (.inr ⟨rfl, e₀, hn, rfl⟩)⟩
      · exact ⟨e, (hlive i e).mpr (.inl ⟨hi, he⟩)⟩
  refine ⟨hinv.entryPower_ge, hinv.entryPower_le, hinv.binPower_eq, hinv.sizeInd_eq,
    hinv.start_le_bound, hinv.bound_le, by simp [StTable.modifyEntry, hinv.length_entries],
    by rw [length_liveSlots_of_iff hsame]; exact hinv.numEntries_eq, hinv.bins_none_iff,
    fun bins hb => ?_, ?_, ?_⟩
  · -- the bins: same live slots, same hashes
    refine (hinv.bins_inv bins hb).of_liveAt rfl (fun i e' he' => ?_) (fun i e he => ?_)
    · rcases hnew i e' he' with ⟨-, h⟩ | ⟨rfl, rfl⟩
      · exact ⟨e', h, rfl⟩
      · exact ⟨e₀, hn, (hf e₀).symm⟩
    · exact (hsame i).mpr ⟨e, he⟩
  · -- hashes: `EQUAL` keys hash alike
    intro i e he
    rcases hnew i e he with ⟨-, h⟩ | ⟨rfl, rfl⟩
    · exact hinv.hash_eq i e h
    · rw [hf, hinv.hash_eq i e₀ hn, hty.doHash_eq _ _ hkey]
  · -- keys: the new key is `EQUAL` to the old one
    intro i j e e' he he' hij
    rcases hnew i e he with ⟨-, h⟩ | ⟨rfl, rfl⟩ <;>
      rcases hnew j e' he' with ⟨-, h'⟩ | ⟨rfl, rfl⟩
    · exact hinv.keys_apart i j e e' h h' hij
    · exact (((hinv.keys_apart j i e₀ e hn h (Ne.symm hij)).of_stEqual hty hkey)).symm
    · exact (hinv.keys_apart i j e₀ e' hn h' hij).of_stEqual hty hkey
    · exact absurd rfl hij

/-- **Reset.** With no live slot left, `st_shift` moves the range back to `0`. -/
theorem Inv.reset (hinv : Inv ty tab) (hnone : ∀ i e, ¬ tab.LiveAt i e) :
    Inv ty { tab with entriesStart := 0, entriesBound := 0, entries := [] } := by
  have hnone' : ∀ i e,
      ¬ StTable.LiveAt { tab with entriesStart := 0, entriesBound := 0, entries := [] } i e :=
    fun i e he => Nat.not_lt_zero i he.2.1
  have hsame : ∀ i,
      (∃ e, StTable.LiveAt { tab with entriesStart := 0, entriesBound := 0, entries := [] } i e) ↔
        ∃ e, tab.LiveAt i e :=
    fun i => ⟨fun ⟨e, he⟩ => absurd he (hnone' i e), fun ⟨e, he⟩ => absurd he (hnone i e)⟩
  refine ⟨hinv.entryPower_ge, hinv.entryPower_le, hinv.binPower_eq, hinv.sizeInd_eq,
    le_refl 0, Nat.zero_le _, rfl, by rw [length_liveSlots_of_iff hsame]; exact hinv.numEntries_eq,
    hinv.bins_none_iff, fun bins hb => ?_, fun i e he => absurd he (hnone' i e),
    fun i _ e _ he => absurd he (hnone' i e)⟩
  exact (hinv.bins_inv bins hb).of_liveAt rfl (fun i e he => absurd he (hnone' i e))
    (fun i e he => absurd he (hnone i e))

/-- `make_tab_empty` gives a valid table with no entry. -/
theorem Inv.makeEmpty (hinv : Inv ty tab) : Inv ty (makeTabEmpty tab) := by
  have hnone : ∀ i e, ¬ (makeTabEmpty tab).LiveAt i e :=
    fun i e he => Nat.not_lt_zero i he.2.1
  refine ⟨hinv.entryPower_ge, hinv.entryPower_le, hinv.binPower_eq, hinv.sizeInd_eq,
    le_refl 0, Nat.zero_le _, rfl, rfl, ?_, fun bins hb => ?_, fun i e he => absurd he (hnone i e),
    fun i _ e _ he => absurd he (hnone i e)⟩
  · show tab.bins.map _ = none ↔ _
    rw [Option.map_eq_none_iff]
    exact hinv.bins_none_iff
  · obtain ⟨_, -, rfl⟩ := Option.map_eq_some_iff.mp hb
    exact BinsInv.initializeBins hnone

/-- **`st_clear`.** -/
theorem Inv.clear (hinv : Inv ty tab) : Inv ty (stClear tab) := by
  have h := hinv.makeEmpty
  refine ⟨h.1, h.2, h.3, h.4, h.5, h.6, h.7, h.8, h.9, fun bins hb => ?_, h.11, h.12⟩
  exact (h.bins_inv bins hb).of_liveAt rfl (fun i e he => ⟨e, he, rfl⟩) (fun i e he => ⟨e, he⟩)

end Writes

end CRuby.St
