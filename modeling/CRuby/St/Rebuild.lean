import CRuby.St.Writes

/-!
# `st.c`: `rebuild_table`

`rebuild_table` copies the live entries, in order, to the front of an entries array (the same
array when it compacts in place, a new one otherwise) and enters each into fresh bins at the
first empty bin of its probe sequence. The copy loop is specified by `CopyInv`: on reaching
slot `i` it has copied exactly the live entries below `i`; compacting in place, the array
still holds the old entries from the write index `ni` on, which is why reading slot `i ≥ ni`
from the array being written gives the old entry. The rebuilt table then holds the same live
entries in the same order (`liveEntries_rebuildTable`) and keeps the invariant.
-/

namespace CRuby.St

open Probing

variable {ty : StHashType} {tab tab' : StTable}

/-! ## `get_power2` -/

/-- `size` fits in the bits the loop of `get_power2` counts, when it stops before its fuel. -/
theorem lt_two_pow_sizeBits : ∀ fuel size, sizeBits fuel size < fuel →
    size < 2 ^ sizeBits fuel size
  | 0, _, h => absurd h (Nat.not_lt_zero _)
  | fuel + 1, size, h => by
    unfold sizeBits at h ⊢
    split
    · rename_i h0
      rw [h0]
      exact Nat.two_pow_pos 0
    · rename_i h0
      rw [if_neg h0] at h
      have ih := lt_two_pow_sizeBits fuel (size >>> 1) (by omega)
      have hhalf : size >>> 1 = size / 2 := Nat.shiftRight_one size
      generalize sizeBits fuel (size >>> 1) = k at ih ⊢
      rw [hhalf] at ih
      rw [Nat.pow_succ]
      omega

/-- `get_power2` answers a power between `MINIMAL_POWER2` and `MAX_POWER2` whose power of two
exceeds the requested size. -/
theorem getPower2_spec {size n : ℕ} (h : getPower2 size = some n) :
    minimalPower2 ≤ n ∧ n ≤ maxPower2 ∧ size < 2 ^ n := by
  dsimp only [getPower2] at h
  split at h
  · rename_i hle
    obtain rfl := Option.some.inj h
    have hsize := lt_two_pow_sizeBits 64 size (by simp only [maxPower2] at hle; omega)
    split
    · rename_i hlt
      refine ⟨le_refl _, by decide, Nat.lt_of_lt_of_le hsize ?_⟩
      exact Nat.pow_le_pow_right (by decide) (Nat.le_of_lt hlt)
    · rename_i hlt
      exact ⟨Nat.le_of_not_lt hlt, hle, hsize⟩
  · cases h

/-- The loop of `get_power2` counts at most `k` bits of a size below `2 ^ k`. -/
theorem sizeBits_le : ∀ fuel size k, size < 2 ^ k → sizeBits fuel size ≤ k
  | 0, _, _, _ => Nat.zero_le _
  | fuel + 1, size, k, h => by
    unfold sizeBits
    split
    · exact Nat.zero_le _
    · rename_i h0
      obtain ⟨k, rfl⟩ : ∃ k', k = k' + 1 := ⟨k - 1, by
        have : k ≠ 0 := fun hk => by rw [hk] at h; omega
        omega⟩
      have hhalf : size >>> 1 < 2 ^ k := by
        rw [Nat.shiftRight_one, Nat.pow_succ] at *
        omega
      exact Nat.succ_le_succ (sizeBits_le fuel _ k hhalf)

/-- The loop of `get_power2` counts more than `k` bits of a size of at least `2 ^ k`, when it
has the turns. -/
theorem lt_sizeBits : ∀ fuel size k, 2 ^ k ≤ size → k < fuel → k < sizeBits fuel size
  | 0, _, _, _, hk => absurd hk (Nat.not_lt_zero _)
  | fuel + 1, size, k, h, hk => by
    unfold sizeBits
    rw [if_neg (by have := Nat.two_pow_pos k; omega)]
    cases k with
    | zero => exact Nat.succ_pos _
    | succ k =>
      have hhalf : 2 ^ k ≤ size >>> 1 := by
        rw [Nat.shiftRight_one]
        rw [Nat.pow_succ] at h
        omega
      exact Nat.succ_lt_succ (lt_sizeBits fuel _ k hhalf (by omega))

/-- `get_power2` answers for a size below `2 ^ MAX_POWER2`, and raises `"st_table too big"`
from `2 ^ MAX_POWER2` on. -/
theorem getPower2_isSome_iff (size : ℕ) : (getPower2 size).isSome ↔ size < 2 ^ maxPower2 := by
  unfold getPower2
  dsimp only
  constructor
  · intro h
    by_contra hge
    have := lt_sizeBits 64 size maxPower2 (Nat.le_of_not_lt hge) (by decide)
    rw [if_neg (by omega)] at h
    cases h
  · intro h
    rw [if_pos (sizeBits_le 64 size maxPower2 h)]
    rfl

/-! ## The live entries below a slot -/

section Below

variable {i : ℕ}

/-- The live entries below `i + 1` are those below `i` and the entry of slot `i`, if live. -/
theorem liveEntries_bound_succ (hs : tab.entriesStart ≤ i) {curr : StTableEntry}
    (hcurr : tab.entries[i]? = some curr) :
    liveEntries { tab with entriesBound := i + 1 } =
      liveEntries { tab with entriesBound := i } ++ if deletedEntryP curr then [] else [curr] := by
  unfold liveEntries liveSlots
  dsimp only
  rw [show i + 1 - tab.entriesStart = (i - tab.entriesStart) + 1 by omega, List.range'_1_concat,
    Nat.add_sub_cancel' hs, List.filter_append, List.filterMap_append]
  congr 1
  cases hdel : deletedEntryP curr <;>
    simp [List.filter, StTable.liveSlotP, hcurr, hdel]

/-- The live entries below `i` come first among all the live entries. -/
theorem liveEntries_bound_isPrefixOf (tab : StTable) {i : ℕ} (hs : tab.entriesStart ≤ i)
    (hi : i ≤ tab.entriesBound) :
    liveEntries { tab with entriesBound := i } <+: liveEntries tab := by
  unfold liveEntries liveSlots
  dsimp only
  rw [show tab.entriesBound - tab.entriesStart =
      (i - tab.entriesStart) + (tab.entriesBound - i) by omega, ← List.range'_append_1,
    Nat.add_sub_cancel' hs, List.filter_append, List.filterMap_append]
  exact List.prefix_append _ _

theorem length_liveEntries_bound_le (tab : StTable) (i : ℕ) :
    (liveEntries { tab with entriesBound := i }).length ≤ i - tab.entriesStart := by
  rw [length_liveEntries]
  calc (liveSlots { tab with entriesBound := i }).length
      ≤ (List.range' tab.entriesStart (i - tab.entriesStart)).length := List.length_filter_le _ _
    _ = i - tab.entriesStart := List.length_range'

/-- No live entry is deleted. -/
theorem deletedEntryP_of_mem_liveEntries {e : StTableEntry} (he : e ∈ liveEntries tab) :
    deletedEntryP e = false := by
  obtain ⟨i, hi⟩ := mem_liveEntries.mp he
  exact hi.2.2.2

end Below

/-! ## Compact tables

A table whose range is `[0, l.length)` and holds the entries `l`, none deleted: what the copy
loop builds, and what `rebuild_table` answers. -/

section Compact

variable {t : StTable} {l : List StTableEntry}

theorem liveAt_compact_iff (hs : t.entriesStart = 0) (hb : t.entriesBound = l.length)
    (he : t.entries = l) (hlive : ∀ x ∈ l, deletedEntryP x = false) {j : ℕ} {e : StTableEntry} :
    t.LiveAt j e ↔ l[j]? = some e := by
  unfold StTable.LiveAt
  rw [hs, hb, he]
  constructor
  · rintro ⟨-, -, h, -⟩
    exact h
  · intro h
    exact ⟨Nat.zero_le _, (List.getElem?_eq_some_iff.mp h).1, h,
      hlive e (List.mem_of_getElem? h)⟩

/-- Every slot of a compact table is live. -/
theorem liveSlots_compact (hs : t.entriesStart = 0) (hb : t.entriesBound = l.length)
    (he : t.entries = l) (hlive : ∀ x ∈ l, deletedEntryP x = false) :
    liveSlots t = List.range' 0 l.length := by
  unfold liveSlots
  rw [hs, hb, Nat.sub_zero, List.filter_eq_self]
  intro j hj
  rw [List.mem_range'_1] at hj
  rw [StTable.liveSlotP_iff, he]
  exact ⟨l[j], List.getElem?_eq_getElem (by omega), hlive _ (List.getElem_mem _)⟩

/-- A compact table lists exactly its entries as live. -/
theorem liveEntries_compact (hs : t.entriesStart = 0) (hb : t.entriesBound = l.length)
    (he : t.entries = l) (hlive : ∀ x ∈ l, deletedEntryP x = false) : liveEntries t = l := by
  rw [liveEntries_eq_map, liveSlots_compact hs hb he hlive, he]
  apply List.ext_getElem (by simp)
  intro j h₁ h₂
  simp [List.getD_eq_getElem?_getD, List.getElem?_eq_getElem h₂]

/-- The table the copy loop has built: the entries `l` copied so far, and bins of power
`binPower`; `BinsInv` reads nothing else of it. -/
def copiedTable (binPower : ℕ) (l : List StTableEntry) : StTable :=
  { entryPower := 0, binPower := binPower, sizeInd := 0, numEntries := l.length,
    entriesStart := 0, entriesBound := l.length, bins := none, entries := l, rebuildsNum := 0 }

end Compact

/-! ## The copy loop -/

/-- What the copy loop of `rebuild_table` has done on reaching slot `i`: the live entries below
`i` are copied, in order, to the front of the array written to, which, compacting in place,
still holds the old entries from the write index `ni` on; they are counted, and entered into
the bins when the new table has bins. -/
structure CopyInv (tab : StTable) (binPower : ℕ) (inPlace hasBins : Bool) (i : ℕ)
    (st : RebuildState) : Prop where
  /-- the loop started at `entries_start` -/
  start_le : tab.entriesStart ≤ i
  /-- the array written to -/
  newEntries_eq : st.newEntries =
    liveEntries { tab with entriesBound := i } ++ if inPlace then tab.entries.drop st.ni else []
  /-- `ni` is the next write index -/
  ni_eq : st.ni = (liveEntries { tab with entriesBound := i }).length
  /-- the new table counts the copied entries -/
  numEntries_eq : st.numEntries = st.ni
  /-- the new table has bins exactly when it started with them -/
  bins_isSome : st.bins.isSome = hasBins
  /-- the bins are valid for the copied entries -/
  bins_inv : ∀ bins, st.bins = some bins →
    BinsInv (copiedTable binPower (liveEntries { tab with entriesBound := i })) bins

section Copy

variable {binPower sizeInd fuel : ℕ} {inPlace hasBins : Bool} {i : ℕ} {st : RebuildState}

/-- Slot `i` read from the array being written is the old slot `i`: compacting in place, the
writes so far went below `ni ≤ i`. -/
theorem CopyInv.read (hc : CopyInv tab binPower inPlace hasBins i st) :
    (if inPlace then st.newEntries else tab.entries)[i]? = tab.entries[i]? := by
  cases inPlace with
  | false => rfl
  | true =>
    have hni : st.ni ≤ i := by
      have := length_liveEntries_bound_le tab i
      rw [hc.ni_eq]
      omega
    simp only [if_true, hc.newEntries_eq]
    rw [List.getElem?_append_right (by rw [← hc.ni_eq]; exact hni), List.getElem?_drop, ← hc.ni_eq,
      Nat.add_sub_cancel' hni]

/-- The array written to after copying the live entry `curr` of slot `i`. -/
theorem CopyInv.newEntries_write (hc : CopyInv tab binPower inPlace hasBins i st)
    (hlen : tab.entries.length = tab.entriesBound) (hi : i < tab.entriesBound)
    {curr : StTableEntry} (hcurr : tab.entries[i]? = some curr) :
    (if inPlace && st.ni == i then st.newEntries
      else if st.ni < st.newEntries.length then st.newEntries.set st.ni curr
      else st.newEntries ++ [curr]) =
      (liveEntries { tab with entriesBound := i } ++ [curr]) ++
        if inPlace then tab.entries.drop (st.ni + 1) else [] := by
  have hni : st.ni ≤ i := by
    have := length_liveEntries_bound_le tab i
    rw [hc.ni_eq]
    omega
  -- the old slots from `ni` on, with the one at `ni` split off
  have hdrop : ∀ n, n < tab.entries.length →
      tab.entries.drop n = tab.entries[n]?.getD curr :: tab.entries.drop (n + 1) := by
    intro n hn
    rw [List.drop_eq_getElem_cons hn, List.getElem?_eq_getElem hn]
    rfl
  cases inPlace with
  | false =>
    simp [hc.newEntries_eq, ← hc.ni_eq]
  | true =>
    simp only [Bool.true_and, if_true]
    by_cases hnii : st.ni = i
    · -- the entry is already in place
      rw [if_pos (beq_iff_eq.mpr hnii), hc.newEntries_eq, hdrop st.ni (by omega), hnii, hcurr]
      simp
    · have hlt : st.ni < st.newEntries.length := by
        rw [hc.newEntries_eq, if_pos rfl, List.length_append, List.length_drop, ← hc.ni_eq]
        omega
      rw [if_neg (by simpa using hnii), if_pos hlt, hc.newEntries_eq, if_pos rfl,
        List.set_append_right _ _ (by rw [← hc.ni_eq]), ← hc.ni_eq, Nat.sub_self,
        hdrop st.ni (by omega)]
      simp

/-- Appending a live entry to the copied entries makes one more slot live, slot `n`. -/
theorem liveAt_copiedTable_append {l : List StTableEntry} {curr : StTableEntry}
    (hdel : deletedEntryP curr = false) {n : ℕ} (hn : n = l.length) (j : ℕ) (e : StTableEntry) :
    (copiedTable binPower (l ++ [curr])).LiveAt j e ↔
      (copiedTable binPower l).LiveAt j e ∨ (j = n ∧ e = curr) := by
  rw [hn]
  exact liveAt_append_iff rfl (Nat.zero_le _) hdel rfl (List.length_append ..) rfl

theorem not_liveAt_copiedTable {l : List StTableEntry} {n : ℕ} (hn : n = l.length)
    (e : StTableEntry) : ¬ (copiedTable binPower l).LiveAt n e := by
  intro he
  have := he.2.1
  rw [hn] at this
  exact Nat.lt_irrefl _ this

/-- **One turn of the copy loop**, at a slot `i` below the bound: either the loop moves on to
slot `i + 1` in a state that satisfies `CopyInv` and has marked no bin deleted, or the search
for the bin of the live entry at `i` runs out of fuel and the loop answers `none`. Every value
stored in a bin fits the bin width, since the new table has room for all the live entries. -/
theorem CopyInv.step (hc : CopyInv tab binPower inPlace hasBins i st)
    (hlen : tab.entries.length = tab.entriesBound) {ep : ℕ} (hep : ep ≤ maxPower2)
    (hroom : (liveEntries tab).length ≤ 2 ^ ep) (hsi : sizeInd = (getFeatures ep).sizeInd)
    (hi : i < tab.entriesBound) :
    (∃ st', CopyInv tab binPower inPlace hasBins (i + 1) st' ∧
      (∀ B', st'.bins = some B' → ∀ b, getBin B' b = deletedBin →
        ∃ B, st.bins = some B ∧ getBin B b = deletedBin) ∧
      ∀ count, rebuildLoop fuel binPower sizeInd inPlace tab.entries i (count + 1) st =
        rebuildLoop fuel binPower sizeInd inPlace tab.entries (i + 1) count st') ∨
    ∃ B curr, st.bins = some B ∧ tab.entries[i]? = some curr ∧ deletedEntryP curr = false ∧
      findTableBinIndDirect fuel binPower B curr.hash = none ∧
      ∀ count, rebuildLoop fuel binPower sizeInd inPlace tab.entries i (count + 1) st = none := by
  have hs := hc.start_le
  obtain ⟨curr, hcurr⟩ : ∃ curr, tab.entries[i]? = some curr :=
    ⟨_, List.getElem?_eq_getElem (hlen ▸ hi)⟩
  have hsucc := liveEntries_bound_succ hc.start_le hcurr
  cases hdel : deletedEntryP curr with
  | true =>
    -- a deleted slot is skipped
    rw [if_pos hdel, List.append_nil] at hsucc
    refine Or.inl ⟨st, ⟨by omega, ?_, ?_, hc.numEntries_eq, hc.bins_isSome, ?_⟩,
      fun B' hB' b hb => ⟨B', hB', hb⟩, fun count => ?_⟩
    · rw [hsucc]
      exact hc.newEntries_eq
    · rw [hsucc]
      exact hc.ni_eq
    · rw [hsucc]
      exact hc.bins_inv
    · rw [rebuildLoop, hc.read, hcurr]
      dsimp only
      rw [if_pos hdel]
  | false =>
    -- a live entry is copied to `ni` and entered into the bins
    rw [if_neg (by simp [hdel])] at hsucc
    have hwrite := hc.newEntries_write hlen hi hcurr
    have hni : st.ni < 2 ^ ep := by
      have hpre := (liveEntries_bound_isPrefixOf tab (i := i + 1) (by omega)
        (by omega)).length_le
      rw [hsucc, List.length_append, ← hc.ni_eq, List.length_singleton] at hpre
      omega
    have hfit : st.ni + entryBase < 2 ^ (8 <<< sizeInd) := hsi ▸ entry_fits_bin hep hni
    have hni' : st.ni + 1 = (liveEntries { tab with entriesBound := i + 1 }).length := by
      rw [hsucc, List.length_append, ← hc.ni_eq]
      rfl
    rcases hb : st.bins with - | B
    · -- no bins
      refine Or.inl ⟨⟨_, none, st.ni + 1, st.numEntries + 1⟩,
        ⟨by omega, by rw [hsucc]; exact hwrite, hni', by rw [hc.numEntries_eq],
          by rw [← hc.bins_isSome, hb], fun bins hbins => by cases hbins⟩,
        (fun B' hB' => by cases hB'), fun count => ?_⟩
      rw [rebuildLoop, hc.read, hcurr]
      dsimp only
      rw [if_neg (by simp [hdel]), hb]
      rfl
    · -- the entry takes the first empty or deleted bin of its probe sequence
      rcases hd : findTableBinIndDirect fuel binPower B curr.hash with - | b
      · refine Or.inr ⟨B, curr, rfl, hcurr, hdel, hd, fun count => ?_⟩
        rw [rebuildLoop, hc.read, hcurr]
        dsimp only
        rw [if_neg (by simp [hdel]), hb]
        dsimp only
        rw [hd]
        rfl
      · obtain ⟨hblt, hbv, hreach⟩ := findTableBinIndDirect_eq_some hd
        refine Or.inl ⟨⟨_, some (setBin B sizeInd b (st.ni + entryBase)), st.ni + 1,
          st.numEntries + 1⟩, ⟨by omega, by rw [hsucc]; exact hwrite, hni',
            by rw [hc.numEntries_eq], by rw [← hc.bins_isSome, hb]; rfl, ?_⟩, ?_, fun count => ?_⟩
        · intro bins hbins
          obtain rfl := Option.some.inj hbins
          rw [hsucc]
          refine (hc.bins_inv B hb).insert ?_ (not_liveAt_copiedTable hc.ni_eq)
            (liveAt_copiedTable_append hdel hc.ni_eq) hblt hbv hreach hfit
          rfl
        · -- the one bin written holds an entry index, not `DELETED_BIN`
          intro B' hB' b' hb'
          obtain rfl := Option.some.inj hB'
          by_cases hbb : b' = b
          · subst hbb
            have hlen' : b' < B.length := by
              rw [(hc.bins_inv B hb).length_eq]
              exact hblt
            rw [getBin_setBin_self hlen', Nat.mod_eq_of_lt hfit] at hb'
            exact absurd hb' (by unfold deletedBin entryBase; omega)
          · rw [getBin_setBin_ne B hbb] at hb'
            exact ⟨B, rfl, hb'⟩
        · rw [rebuildLoop, hc.read, hcurr]
          dsimp only
          rw [if_neg (by simp [hdel]), hb]
          dsimp only
          rw [hd]
          rfl

section Loop

variable (hlen : tab.entries.length = tab.entriesBound) {ep : ℕ} (hep : ep ≤ maxPower2)
  (hroom : (liveEntries tab).length ≤ 2 ^ ep) (hsi : sizeInd = (getFeatures ep).sizeInd)
include hlen hep hroom hsi

/-- **The copy loop.** Run from slot `i` up to the bound, the copy loop copies every live
entry: the state it answers satisfies `CopyInv` at `entries_bound`. By induction on the slots
left, one turn at a time (`CopyInv.step`). -/
theorem rebuildLoop_copyInv :
    ∀ count i st st', i + count = tab.entriesBound → CopyInv tab binPower inPlace hasBins i st →
      rebuildLoop fuel binPower sizeInd inPlace tab.entries i count st = some st' →
      CopyInv tab binPower inPlace hasBins tab.entriesBound st' := by
  intro count
  induction count with
  | zero =>
    intro i st st' hic hc h
    obtain rfl := Option.some.inj h
    rw [Nat.add_zero] at hic
    rw [← hic]
    exact hc
  | succ count ih =>
    intro i st st' hic hc h
    rcases hc.step hlen hep hroom hsi (by omega) with ⟨st'', hc', -, heq⟩ | ⟨-, -, -, -, -, -, hnone⟩
    · rw [heq] at h
      exact ih (i + 1) st'' st' (by omega) hc' h
    · rw [hnone] at h
      cases h

/-- The copy loop marks no bin deleted: from bins without a `DELETED_BIN` it answers bins
without one. -/
theorem rebuildLoop_noDeletedBin :
    ∀ count i st st', i + count = tab.entriesBound → CopyInv tab binPower inPlace hasBins i st →
      (∀ B, st.bins = some B → ∀ b, getBin B b ≠ deletedBin) →
      rebuildLoop fuel binPower sizeInd inPlace tab.entries i count st = some st' →
      ∀ B, st'.bins = some B → ∀ b, getBin B b ≠ deletedBin := by
  intro count
  induction count with
  | zero =>
    intro i st st' _ _ hnd h
    obtain rfl := Option.some.inj h
    exact hnd
  | succ count ih =>
    intro i st st' hic hc hnd h
    rcases hc.step hlen hep hroom hsi (by omega) with ⟨st'', hc', hmark, heq⟩ |
        ⟨-, -, -, -, -, -, hnone⟩
    · rw [heq] at h
      refine ih (i + 1) st'' st' (by omega) hc' (fun B' hB' b hb => ?_) h
      obtain ⟨B, hB, hdel⟩ := hmark B' hB' b hb
      exact hnd B hB b hdel
    · rw [hnone] at h
      cases h

/-- **The copy loop answers** when its searches have the fuel to cover the new bins, which
number `2 ^ (ep + 1)`: the entries copied so far are fewer, so a bin is free
(`BinsInv.exists_free`), and the probe sequence of a 64-bit hash meets it
(`findTableBinIndDirect_isSome`). -/
theorem rebuildLoop_isSome (hbp : binPower = ep + 1)
    (hhash : ∀ e ∈ liveEntries tab, e.hash < 2 ^ 64) (hfuel : 2 ^ binPower + 5 ≤ fuel) :
    ∀ count i st, i + count = tab.entriesBound → CopyInv tab binPower inPlace hasBins i st →
      (rebuildLoop fuel binPower sizeInd inPlace tab.entries i count st).isSome := by
  intro count
  induction count with
  | zero =>
    intro i st _ _
    rfl
  | succ count ih =>
    intro i st hic hc
    have hi : i < tab.entriesBound := by omega
    rcases hc.step hlen hep hroom hsi hi with ⟨st'', hc', -, heq⟩ |
        ⟨B, curr, hB, hcurr, hdel, hd, -⟩
    · rw [heq]
      exact ih (i + 1) st'' (by omega) hc'
    · -- the entry's search has a free bin to stop at
      exfalso
      have hpre := (liveEntries_bound_isPrefixOf tab hc.start_le hi.le).length_le
      set l := liveEntries { tab with entriesBound := i } with hl
      have hlive : ∀ x ∈ l, deletedEntryP x = false :=
        fun x hx => deletedEntryP_of_mem_liveEntries hx
      have hlt :
          (liveSlots (copiedTable binPower l)).length < 2 ^ (copiedTable binPower l).binPower := by
        rw [liveSlots_compact rfl rfl rfl hlive, List.length_range']
        show l.length < 2 ^ binPower
        rw [hbp, Nat.pow_succ]
        have := Nat.two_pow_pos ep
        omega
      obtain ⟨b, hb, hfree⟩ := (hc.bins_inv B hB).exists_free hlt
      have hmem : curr ∈ liveEntries tab := mem_liveEntries.mpr ⟨i, hc.start_le, hi, hcurr, hdel⟩
      have hsome := findTableBinIndDirect_isSome (hhash curr hmem)
        (show binPower ≤ 64 by unfold maxPower2 at hep; omega) hb hfree hfuel
      rw [hd] at hsome
      cases hsome

end Loop

end Copy

/-- The loop starts with nothing copied, from an array that is the old one (compacting in place)
or empty, and fresh bins or none. -/
theorem CopyInv.start (tab : StTable) {binPower : ℕ} (inPlace : Bool)
    {newEntries : List StTableEntry}
    (hnew : newEntries = if inPlace then tab.entries else [])
    {bins : Option (List ℕ)} (hbins : ∀ B, bins = some B → B = initializeBins binPower) :
    CopyInv tab binPower inPlace bins.isSome tab.entriesStart ⟨newEntries, bins, 0, 0⟩ := by
  have hnil : liveEntries { tab with entriesBound := tab.entriesStart } = [] := by
    simp [liveEntries, liveSlots]
  refine ⟨le_refl _, ?_, by rw [hnil]; rfl, rfl, rfl, fun B hB => ?_⟩
  · rw [hnil, hnew]
    cases inPlace <;> rfl
  · rw [hbins B hB, hnil]
    exact BinsInv.initializeBins fun i e he => Nat.not_lt_zero i he.2.1

/-! ## The rebuilt table -/

/-- `st_init_table_with_size`: a table with room for `size` entries, sized by the features
table, empty, with fresh bins exactly when it is too large for a linear search. -/
theorem stInitTableWithSize_spec {size : ℕ} {t : StTable} (h : stInitTableWithSize size = some t) :
    minimalPower2 ≤ t.entryPower ∧ t.entryPower ≤ maxPower2 ∧ size < 2 ^ t.entryPower ∧
      t.binPower = (getFeatures t.entryPower).binPower ∧
      t.sizeInd = (getFeatures t.entryPower).sizeInd ∧
      t.numEntries = 0 ∧ t.entriesStart = 0 ∧ t.entriesBound = 0 ∧ t.entries = [] ∧
      (t.bins = none ↔ t.entryPower ≤ maxPower2ForTablesWithoutBins) ∧
      ∀ B, t.bins = some B → B = initializeBins t.binPower := by
  simp only [stInitTableWithSize, bind, Option.bind_eq_some_iff] at h
  obtain ⟨n, hn, ht⟩ := h
  obtain rfl := Option.some.inj ht
  obtain ⟨hge, hle, hsize⟩ := getPower2_spec hn
  refine ⟨hge, hle, hsize, rfl, rfl, rfl, rfl, rfl, rfl, ?_, fun B hB => ?_⟩
  · show Option.map _ _ = none ↔ n ≤ maxPower2ForTablesWithoutBins
    split
    · rename_i hsmall
      simp [hsmall]
    · rename_i hbig
      simp [hbig]
  · obtain ⟨_, -, rfl⟩ := Option.map_eq_some_iff.mp hB
    rfl

/-- A new table satisfies the invariant. -/
theorem Inv.init {size : ℕ} (h : stInitTableWithSize size = some tab) : Inv ty tab := by
  obtain ⟨hge, hle, -, hbp, hsi, hnum, hs, hb, he, hbinsnone, hbins⟩ := stInitTableWithSize_spec h
  have hnone : ∀ i e, ¬ tab.LiveAt i e := fun i e hlive => by
    have := hlive.2.1
    rw [hb] at this
    exact Nat.not_lt_zero i this
  refine ⟨hge, hle, hbp, hsi, by rw [hs, hb], by rw [hb]; exact Nat.zero_le _, by rw [he, hb]; rfl,
    ?_, hbinsnone, fun B hB => ?_, fun i e he => absurd he (hnone i e),
    fun i _ e _ he => absurd he (hnone i e)⟩
  · rw [hnum, liveSlots, hs, hb]
    rfl
  · rw [hbins B hB]
    exact BinsInv.initializeBins hnone

/-- Live slots in the order of the live entries. -/
theorem liveSlots_lt {j j' i i' : ℕ} (hj : (liveSlots tab)[j]? = some i)
    (hj' : (liveSlots tab)[j']? = some i') (hlt : j < j') : i < i' := by
  obtain ⟨hjl, rfl⟩ := List.getElem?_eq_some_iff.mp hj
  obtain ⟨hjl', rfl⟩ := List.getElem?_eq_some_iff.mp hj'
  exact List.pairwise_iff_getElem.mp liveSlots_sorted j j' hjl hjl' hlt

/-- **A compact copy keeps the invariant.** A table whose range is `[0, n)` and holds the live
entries of `tab` in order, sized by the features table with room for them, with valid bins
for them, satisfies the invariant. -/
theorem Inv.of_compact (hinv : Inv ty tab) {t : StTable} (hs : t.entriesStart = 0)
    (he : t.entries = liveEntries tab) (hb : t.entriesBound = (liveEntries tab).length)
    (hnum : t.numEntries = (liveEntries tab).length)
    (hge : minimalPower2 ≤ t.entryPower) (hle : t.entryPower ≤ maxPower2)
    (hbp : t.binPower = (getFeatures t.entryPower).binPower)
    (hsi : t.sizeInd = (getFeatures t.entryPower).sizeInd)
    (hroom : (liveEntries tab).length ≤ 2 ^ t.entryPower)
    (hbinsnone : t.bins = none ↔ t.entryPower ≤ maxPower2ForTablesWithoutBins)
    (hbins : ∀ B, t.bins = some B → BinsInv (copiedTable t.binPower (liveEntries tab)) B) :
    Inv ty t := by
  have hlive : ∀ x ∈ liveEntries tab, deletedEntryP x = false :=
    fun x hx => deletedEntryP_of_mem_liveEntries hx
  have hat : ∀ j e, t.LiveAt j e ↔ (liveEntries tab)[j]? = some e :=
    fun j e => liveAt_compact_iff hs hb he hlive
  have hcopied : ∀ j e, (copiedTable t.binPower (liveEntries tab)).LiveAt j e ↔
      (liveEntries tab)[j]? = some e :=
    fun j e => liveAt_compact_iff rfl rfl rfl hlive
  -- the entry at position `j` of the live entries is the entry of a live slot of `tab`
  have hslot : ∀ j e, t.LiveAt j e → ∃ i, (liveSlots tab)[j]? = some i ∧ tab.LiveAt i e :=
    fun j e h => getElem?_liveEntries.mp ((hat j e).mp h)
  refine ⟨hge, hle, hbp, hsi, by rw [hs]; exact Nat.zero_le _, by rw [hb]; exact hroom,
    by rw [he, hb], ?_, hbinsnone, fun B hB => ?_, fun j e h => ?_, fun j j' e e' h h' hjj => ?_⟩
  · rw [hnum, liveSlots_compact hs hb he hlive, List.length_range']
  · refine (hbins B hB).of_liveAt rfl (fun j e' he' => ⟨e', ?_, rfl⟩) (fun j e he' => ⟨e, ?_⟩)
    · exact (hcopied j e').mpr ((hat j e').mp he')
    · exact (hat j e).mpr ((hcopied j e).mp he')
  · obtain ⟨i, -, hi⟩ := hslot j e h
    exact hinv.hash_eq i e hi
  · -- two positions of the live entries are two live slots of `tab`
    obtain ⟨i, hj, hi⟩ := hslot j e h
    obtain ⟨i', hj', hi'⟩ := hslot j' e' h'
    refine hinv.keys_apart i i' e e' hi hi' ?_
    rcases Nat.lt_or_gt_of_ne hjj with hlt | hlt
    · exact Nat.ne_of_lt (liveSlots_lt hj hj' hlt)
    · exact Nat.ne_of_gt (liveSlots_lt hj' hj hlt)

/-- The live entries number `num_entries`, at most the bound. -/
theorem Inv.liveEntries_count (hinv : Inv ty tab) :
    (liveEntries tab).length = tab.numEntries ∧ tab.numEntries ≤ tab.entriesBound := by
  rw [length_liveEntries, ← hinv.numEntries_eq]
  refine ⟨rfl, ?_⟩
  rw [hinv.numEntries_eq]
  calc (liveSlots tab).length
      ≤ (List.range' tab.entriesStart (tab.entriesBound - tab.entriesStart)).length :=
        List.length_filter_le _ _
    _ ≤ tab.entriesBound := by rw [List.length_range']; omega

/-- `features[n]` has twice as many bins as entries. -/
theorem getFeatures_binPower {ep : ℕ} (hep : ep ≤ maxPower2) : (getFeatures ep).binPower = ep + 1 := by
  have hall : ∀ ep < maxPower2 + 1, (getFeatures ep).binPower = ep + 1 := by decide
  exact hall ep (Nat.lt_succ_of_le hep)

/-- Fresh bins hold no `DELETED_BIN`. -/
theorem initializeBins_ne_deleted (p b : ℕ) : getBin (initializeBins p) b ≠ deletedBin := by
  rw [getBin_initializeBins]
  decide

/-- **What `rebuild_table` answers**: a table that keeps the invariant and the live entries in
order, holds exactly them from slot `0` with `entries_bound = num_entries` below the size of
its array, and has no `DELETED_BIN`. The two branches are the copy loop run in place over the
old array with its bins cleared, and run into a new table's empty array and fresh bins. -/
theorem rebuildTable_spec (hinv : Inv ty tab) {fuel : ℕ} (h : rebuildTable fuel tab = some tab') :
    Inv ty tab' ∧ liveEntries tab' = liveEntries tab ∧ tab'.entries = liveEntries tab ∧
      tab'.entriesStart = 0 ∧ tab'.entriesBound = tab'.numEntries ∧
      tab'.numEntries < 2 ^ tab'.entryPower ∧
      ∀ B, tab'.bins = some B → ∀ b, getBin B b ≠ deletedBin := by
  obtain ⟨hcount, hnumle⟩ := hinv.liveEntries_count
  have hlive : ∀ x ∈ liveEntries tab, deletedEntryP x = false :=
    fun x hx => deletedEntryP_of_mem_liveEntries hx
  have hpow : 4 ≤ 2 ^ tab.entryPower := by
    have := Nat.pow_le_pow_right (show 0 < 2 by decide) hinv.entryPower_ge
    simpa [minimalPower2] using this
  unfold rebuildTable at h
  split at h
  · -- compaction in place
    rename_i hcompact
    simp only [bind, Option.bind_eq_some_iff, pure, Option.some.injEq] at h
    obtain ⟨st, hloop, rfl⟩ := h
    have hroom : (liveEntries tab).length ≤ 2 ^ tab.entryPower := by
      rw [hcount]
      exact Nat.le_trans hnumle hinv.bound_le
    have hstart := @CopyInv.start tab tab.binPower true _ rfl
      (tab.bins.map fun _ => initializeBins tab.binPower)
      fun B hB => (Option.map_eq_some_iff.mp hB).choose_spec.2.symm
    have hc := rebuildLoop_copyInv hinv.length_entries hinv.entryPower_le hroom hinv.sizeInd_eq
      _ _ _ _ (by have := hinv.start_le_bound; omega) hstart hloop
    have hnd := rebuildLoop_noDeletedBin hinv.length_entries hinv.entryPower_le hroom
      hinv.sizeInd_eq _ _ _ _ (by have := hinv.start_le_bound; omega) hstart
      (fun B hB b => by
        obtain ⟨_, -, rfl⟩ := Option.map_eq_some_iff.mp hB
        exact initializeBins_ne_deleted _ b) hloop
    have hentries : st.newEntries.take st.numEntries = liveEntries tab := by
      rw [hc.newEntries_eq, hc.numEntries_eq, hc.ni_eq]
      exact List.take_left' rfl
    have hnum : st.numEntries = (liveEntries tab).length := by
      rw [hc.numEntries_eq, hc.ni_eq]
    refine ⟨hinv.of_compact rfl hentries hnum hnum hinv.entryPower_ge hinv.entryPower_le
      hinv.binPower_eq hinv.sizeInd_eq hroom ?_ hc.bins_inv,
      liveEntries_compact rfl hnum hentries hlive, hentries, rfl, rfl, ?_, hnd⟩
    · show st.bins = none ↔ _
      rw [← hinv.bins_none_iff, ← Option.not_isSome_iff_eq_none, ← Option.not_isSome_iff_eq_none,
        hc.bins_isSome, Option.isSome_map]
    · -- the compaction condition leaves room
      show st.numEntries < 2 ^ tab.entryPower
      rw [hnum, hcount]
      simp only [getAllocatedEntries, Nat.one_shiftLeft, rebuildThreshold, minimalPower2] at hcompact
      omega
  · -- a new table sized for `2 * num_entries - 1`
    simp only [bind, Option.bind_eq_some_iff, pure, Option.some.injEq] at h
    obtain ⟨newTab, hnew, st, hloop, rfl⟩ := h
    obtain ⟨hge, hle, hsize, hbp, hsi, -, -, -, -, hbinsnone, hbins⟩ :=
      stInitTableWithSize_spec hnew
    have hroom : (liveEntries tab).length ≤ 2 ^ newTab.entryPower := by
      rw [hcount]
      omega
    have hstart := CopyInv.start tab false rfl hbins
    have hc := rebuildLoop_copyInv hinv.length_entries hle hroom hsi _ _ _ _
      (by have := hinv.start_le_bound; omega) hstart hloop
    have hnd := rebuildLoop_noDeletedBin hinv.length_entries hle hroom hsi _ _ _ _
      (by have := hinv.start_le_bound; omega) hstart
      (fun B hB b => by rw [hbins B hB]; exact initializeBins_ne_deleted _ b) hloop
    have hentries : st.newEntries = liveEntries tab := by
      rw [hc.newEntries_eq, if_neg Bool.false_ne_true, List.append_nil]
    refine ⟨hinv.of_compact rfl hentries hcount.symm hcount.symm hge hle hbp hsi hroom ?_
      hc.bins_inv, liveEntries_compact rfl hcount.symm hentries hlive, hentries, rfl, rfl, ?_,
      hnd⟩
    · show st.bins = none ↔ _
      rw [← hbinsnone, ← Option.not_isSome_iff_eq_none, ← Option.not_isSome_iff_eq_none,
        hc.bins_isSome]
    · show tab.numEntries < 2 ^ newTab.entryPower
      omega

/-- **`rebuild_table`** keeps the invariant and the live entries in order, and leaves room for
one more entry. -/
theorem Inv.rebuild (hinv : Inv ty tab) {fuel : ℕ} (h : rebuildTable fuel tab = some tab') :
    Inv ty tab' ∧ liveEntries tab' = liveEntries tab ∧ tab'.entriesBound < 2 ^ tab'.entryPower := by
  obtain ⟨hinv', hlive, -, -, hbound, hnum, -⟩ := rebuildTable_spec hinv h
  exact ⟨hinv', hlive, hbound ▸ hnum⟩

/-- **`rebuild_table_if_necessary`** keeps the invariant and the live entries, and leaves room
for one more entry. -/
theorem Inv.rebuildIfNecessary (hinv : Inv ty tab) {fuel : ℕ}
    (h : rebuildTableIfNecessary fuel tab = some tab') :
    Inv ty tab' ∧ liveEntries tab' = liveEntries tab ∧ tab'.entriesBound < 2 ^ tab'.entryPower := by
  unfold rebuildTableIfNecessary at h
  split at h
  · exact hinv.rebuild h
  · rename_i hfull
    obtain rfl := Option.some.inj h
    refine ⟨hinv, rfl, ?_⟩
    have := hinv.bound_le
    simp only [getAllocatedEntries, Nat.one_shiftLeft] at hfull
    omega

/-! ## When `rebuild_table` answers -/

theorem Inv.binPower_eq_succ (hinv : Inv ty tab) : tab.binPower = tab.entryPower + 1 := by
  rw [hinv.binPower_eq, getFeatures_binPower hinv.entryPower_le]

/-- A live entry's hash is a 64-bit `do_hash`. -/
theorem Inv.hash_lt (hinv : Inv ty tab) : ∀ e ∈ liveEntries tab, e.hash < 2 ^ 64 := by
  intro e he
  obtain ⟨i, hi⟩ := mem_liveEntries.mp he
  rw [hinv.hash_eq i e hi]
  exact doHash_lt ty e.key

/-- The fuel `2 ^ 64` covers the searches of any bins array, of at most `2 ^ 63` bins. -/
theorem fuel_covers_bins {fuel bp : ℕ} (hfuel : 2 ^ 64 ≤ fuel) (hbp : bp ≤ maxPower2 + 1) :
    2 ^ bp + 5 ≤ fuel := by
  have := Nat.pow_le_pow_right (show 0 < 2 by decide) hbp
  unfold maxPower2 at this
  omega

/-- **`rebuild_table` answers** for a table with at most `2 ^ 61` live entries, once the bin
searches have the fuel to cover any bins array. -/
theorem rebuildTable_isSome (hinv : Inv ty tab) (hn : tab.numEntries ≤ 2 ^ 61) {fuel : ℕ}
    (hfuel : 2 ^ 64 ≤ fuel) : (rebuildTable fuel tab).isSome := by
  obtain ⟨hcount, hnumle⟩ := hinv.liveEntries_count
  have hstart_le : tab.entriesStart + (tab.entriesBound - tab.entriesStart) = tab.entriesBound := by
    have := hinv.start_le_bound
    omega
  unfold rebuildTable
  split
  · -- compaction in place
    have hroom : (liveEntries tab).length ≤ 2 ^ tab.entryPower := by
      rw [hcount]
      exact Nat.le_trans hnumle hinv.bound_le
    have hloop := rebuildLoop_isSome hinv.length_entries hinv.entryPower_le hroom hinv.sizeInd_eq
      hinv.binPower_eq_succ hinv.hash_lt
      (fuel_covers_bins hfuel (by rw [hinv.binPower_eq_succ]; exact Nat.succ_le_succ hinv.entryPower_le))
      _ _ _ hstart_le
      (@CopyInv.start tab tab.binPower true tab.entries rfl
        (tab.bins.map fun _ => initializeBins tab.binPower)
        fun B hB => (Option.map_eq_some_iff.mp hB).choose_spec.2.symm)
    obtain ⟨st, hst⟩ := Option.isSome_iff_exists.mp hloop
    simp only [bind, hst]
    rfl
  · -- a new table sized for `2 * num_entries - 1`, which `get_power2` can size
    obtain ⟨newTab, hnew⟩ : ∃ t, stInitTableWithSize (2 * tab.numEntries - 1) = some t := by
      have := (getPower2_isSome_iff (2 * tab.numEntries - 1)).mpr (by unfold maxPower2; omega)
      obtain ⟨n, hn⟩ := Option.isSome_iff_exists.mp this
      exact ⟨_, by simp only [stInitTableWithSize, bind, hn]; rfl⟩
    obtain ⟨hge, hle, hsize, hbp, hsi, -, -, -, -, -, hbins⟩ := stInitTableWithSize_spec hnew
    have hroom : (liveEntries tab).length ≤ 2 ^ newTab.entryPower := by
      rw [hcount]
      omega
    have hbp' : newTab.binPower = newTab.entryPower + 1 := hbp.trans (getFeatures_binPower hle)
    have hloop := rebuildLoop_isSome hinv.length_entries hle hroom hsi hbp' hinv.hash_lt
      (fuel_covers_bins hfuel (by rw [hbp']; exact Nat.succ_le_succ hle)) _ _ _ hstart_le
      (@CopyInv.start tab newTab.binPower false [] rfl newTab.bins hbins)
    obtain ⟨st, hst⟩ := Option.isSome_iff_exists.mp hloop
    simp only [bind, hnew, Option.bind_some, hst]
    rfl

/-- With more than `2 ^ 61` live entries, which only a full array of `2 ^ MAX_POWER2` entries
holds, `rebuild_table` asks for a new table of `2 * num_entries - 1 ≥ 2 ^ MAX_POWER2` entries,
and `get_power2` raises `"st_table too big"`. -/
theorem rebuildTable_eq_none (hinv : Inv ty tab) (hn : 2 ^ 61 < tab.numEntries) (fuel : ℕ) :
    rebuildTable fuel tab = none := by
  have hnumle := hinv.liveEntries_count.2
  have hpow : 2 ^ tab.entryPower ≤ 2 ^ maxPower2 :=
    Nat.pow_le_pow_right (by decide) hinv.entryPower_le
  have hbound := hinv.bound_le
  unfold maxPower2 at hpow
  have hnone : stInitTableWithSize (2 * tab.numEntries - 1) = none := by
    have := (getPower2_isSome_iff (2 * tab.numEntries - 1)).not.mpr (by unfold maxPower2; omega)
    simp only [stInitTableWithSize, bind, Option.not_isSome_iff_eq_none.mp this]
    rfl
  unfold rebuildTable
  -- neither compaction condition holds: the array is at most half as large as twice the count
  rw [if_neg (by simp only [getAllocatedEntries, Nat.one_shiftLeft, minimalPower2]; omega)]
  simp only [bind, hnone]
  rfl

/-- `rebuild_table_if_necessary` answers whenever `rebuild_table` does. -/
theorem rebuildTableIfNecessary_isSome (hinv : Inv ty tab) (hn : tab.numEntries ≤ 2 ^ 61)
    {fuel : ℕ} (hfuel : 2 ^ 64 ≤ fuel) : (rebuildTableIfNecessary fuel tab).isSome := by
  unfold rebuildTableIfNecessary
  split
  · exact rebuildTable_isSome hinv hn hfuel
  · rfl

/-- **`rebuild_table` and `rebuild_table_if_necessary`.** On a table that satisfies the
invariant, `rebuild_table` answers unless more than `2 ^ 61` entries are live (then
`get_power2` raises `"st_table too big"`); what it answers satisfies the invariant, holds
the same live entries in the same order from slot `0`, with `entries_bound = num_entries`
below `2 ^ entry_power`, no deleted entry and no `DELETED_BIN`; and after
`rebuild_table_if_necessary` the array has a free slot for the next entry. -/
theorem rebuild_table_compacts (hinv : Inv ty tab) :
    (tab.numEntries ≤ 2 ^ 61 → ∀ fuel, 2 ^ 64 ≤ fuel → (rebuildTable fuel tab).isSome) ∧
    (2 ^ 61 < tab.numEntries → ∀ fuel, rebuildTable fuel tab = none) ∧
    (∀ fuel tab', rebuildTable fuel tab = some tab' →
      Inv ty tab' ∧ liveEntries tab' = liveEntries tab ∧ tab'.entriesStart = 0 ∧
        tab'.entriesBound = tab'.numEntries ∧ tab'.numEntries < 2 ^ tab'.entryPower ∧
        (∀ e ∈ tab'.entries, deletedEntryP e = false) ∧
        ∀ B, tab'.bins = some B → ∀ b, getBin B b ≠ deletedBin) ∧
    (tab.numEntries ≤ 2 ^ 61 → ∀ fuel, 2 ^ 64 ≤ fuel →
      (rebuildTableIfNecessary fuel tab).isSome) ∧
    ∀ fuel tab', rebuildTableIfNecessary fuel tab = some tab' →
      Inv ty tab' ∧ liveEntries tab' = liveEntries tab ∧
        tab'.entriesBound < getAllocatedEntries tab' := by
  refine ⟨fun hn fuel hfuel => rebuildTable_isSome hinv hn hfuel,
    fun hn fuel => rebuildTable_eq_none hinv hn fuel, fun fuel tab' h => ?_,
    fun hn fuel hfuel => rebuildTableIfNecessary_isSome hinv hn hfuel, fun fuel tab' h => ?_⟩
  · obtain ⟨hinv', hlive, hentries, hs, hb, hnum, hbins⟩ := rebuildTable_spec hinv h
    refine ⟨hinv', hlive, hs, hb, hnum, fun e he => ?_, hbins⟩
    rw [hentries] at he
    exact deletedEntryP_of_mem_liveEntries he
  · obtain ⟨hinv', hlive, hroom⟩ := hinv.rebuildIfNecessary h
    refine ⟨hinv', hlive, ?_⟩
    rw [getAllocatedEntries, Nat.one_shiftLeft]
    exact hroom

/-- The empty numeric table of `st_init_numtable`. -/
theorem rebuild_table_compacts_init :
    let tab : StTable := ⟨2, 3, 0, 0, 0, 0, none, [], 0⟩
    (tab.numEntries ≤ 2 ^ 61 → ∀ fuel, 2 ^ 64 ≤ fuel → (rebuildTable fuel tab).isSome) ∧
    (2 ^ 61 < tab.numEntries → ∀ fuel, rebuildTable fuel tab = none) ∧
    (∀ fuel tab', rebuildTable fuel tab = some tab' →
      Inv stHashtypeNum tab' ∧ liveEntries tab' = liveEntries tab ∧ tab'.entriesStart = 0 ∧
        tab'.entriesBound = tab'.numEntries ∧ tab'.numEntries < 2 ^ tab'.entryPower ∧
        (∀ e ∈ tab'.entries, deletedEntryP e = false) ∧
        ∀ B, tab'.bins = some B → ∀ b, getBin B b ≠ deletedBin) ∧
    (tab.numEntries ≤ 2 ^ 61 → ∀ fuel, 2 ^ 64 ≤ fuel →
      (rebuildTableIfNecessary fuel tab).isSome) ∧
    ∀ fuel tab', rebuildTableIfNecessary fuel tab = some tab' →
      Inv stHashtypeNum tab' ∧ liveEntries tab' = liveEntries tab ∧
        tab'.entriesBound < getAllocatedEntries tab' :=
  rebuild_table_compacts (Inv.init (show stInitTableWithSize 0 = some _ from rfl))

/-! ## A table too big to rebuild

The keys `0, …, N` under the identity hash, each entry in the bin of its hash: the first of
its probe sequence. -/

/-- Bin `b ≤ N` holds entry `b`, every other bin is empty. -/
theorem getBin_identBins (N P b : ℕ) (hN : N < 2 ^ P) :
    getBin ((List.range (2 ^ P)).map fun b => if b ≤ N then b + entryBase else emptyBin) b =
      if b ≤ N then b + entryBase else emptyBin := by
  unfold getBin
  rw [List.getD_eq_getElem?_getD, List.getElem?_map]
  by_cases hb : b < 2 ^ P
  · rw [List.getElem?_range hb]
    rfl
  · rw [List.getElem?_eq_none (by rw [List.length_range]; omega), if_neg (by omega)]
    rfl

/-- Slot `i ≤ N` holds key `i` with hash `i`. -/
theorem getElem?_identEntries (N i : ℕ) :
    ((List.range (N + 1)).map (fun i => (⟨i, i, 0⟩ : StTableEntry)))[i]? =
      if i < N + 1 then some ⟨i, i, 0⟩ else none := by
  rw [List.getElem?_map]
  by_cases hi : i < N + 1
  · rw [List.getElem?_range hi, if_pos hi]
    rfl
  · rw [List.getElem?_eq_none (by rw [List.length_range]; omega), if_neg hi]
    rfl

/-- A table of `N + 1` live entries with keys `0, …, N` hashed by the identity, each in the bin
of its hash, in arrays of `2 ^ 62` entries and `2 ^ 63` bins, satisfies the invariant. -/
theorem inv_identTable {N : ℕ} (hN : N < 2 ^ 62) :
    Inv ⟨stNumcmp, fun n => n⟩ ⟨62, 63, 3, N + 1, 0, N + 1,
      some ((List.range (2 ^ 63)).map fun b => if b ≤ N then b + entryBase else emptyBin),
      (List.range (N + 1)).map (fun i => ⟨i, i, 0⟩), 0⟩ := by
  set B := (List.range (2 ^ 63)).map fun b => if b ≤ N then b + entryBase else emptyBin with hB
  set l := (List.range (N + 1)).map (fun i => (⟨i, i, 0⟩ : StTableEntry)) with hl
  set tab : StTable := ⟨62, 63, 3, N + 1, 0, N + 1, some B, l, 0⟩ with htab
  have hget : ∀ b, getBin B b = if b ≤ N then b + entryBase else emptyBin :=
    fun b => getBin_identBins N 63 b (by omega)
  have hnotdel : ∀ i, i < N + 1 → deletedEntryP ⟨i, i, 0⟩ = false := by
    intro i hi
    simp only [deletedEntryP, reservedHashVal, beq_eq_false_iff_ne]
    omega
  have hlive : ∀ i e, tab.LiveAt i e ↔ i < N + 1 ∧ e = ⟨i, i, 0⟩ := by
    intro i e
    unfold StTable.LiveAt
    rw [show tab.entries = l from rfl, hl, getElem?_identEntries]
    constructor
    · rintro ⟨-, hi, he, -⟩
      rw [if_pos hi] at he
      exact ⟨hi, (Option.some.inj he).symm⟩
    · rintro ⟨hi, rfl⟩
      exact ⟨Nat.zero_le _, hi, if_pos hi, hnotdel i hi⟩
  have hlen : l.length = N + 1 := by
    rw [hl, List.length_map, List.length_range]
  have hall : ∀ x ∈ l, deletedEntryP x = false := by
    intro x hx
    rw [hl, List.mem_map] at hx
    obtain ⟨i, hi, rfl⟩ := hx
    exact hnotdel i (List.mem_range.mp hi)
  refine ⟨(by decide : minimalPower2 ≤ 62), (by decide : 62 ≤ maxPower2),
    (by decide : 63 = (getFeatures 62).binPower), (by decide : 3 = (getFeatures 62).sizeInd),
    Nat.zero_le _, (by omega : N + 1 ≤ 2 ^ 62), hlen, ?_, ?_, ?_, ?_, ?_⟩
  · -- every slot is live
    rw [liveSlots_compact rfl hlen.symm rfl hall, List.length_range']
    exact hlen.symm
  · exact ⟨fun h => (by cases h), fun h => absurd h (by decide : ¬ 62 ≤ maxPower2ForTablesWithoutBins)⟩
  · -- each entry sits in the bin of its hash, the first of its probe sequence
    intro bins hbins
    obtain rfl := Option.some.inj hbins
    refine ⟨by rw [hB, List.length_map, List.length_range], fun b hb => ?_, fun i e he => ?_⟩
    · rw [hget b] at hb ⊢
      have hbN : b ≤ N := by
        by_contra hbN
        rw [if_neg hbN] at hb
        exact absurd hb (by decide)
      rw [if_pos hbN, Nat.add_sub_cancel]
      refine ⟨⟨b, b, 0⟩, (hlive b _).mpr ⟨by omega, rfl⟩, 0, ?_, fun j hj => absurd hj (by omega)⟩
      show hashBin b 63 = b
      rw [hashBin_eq]
      exact Nat.mod_eq_of_lt (by omega)
    · obtain ⟨hi, rfl⟩ := (hlive i e).mp he
      refine ⟨i, ⟨(by omega : i < 2 ^ 63), by rw [hget i, if_pos (by omega)]⟩, fun b hbi => ?_⟩
      obtain ⟨-, hbv⟩ := hbi
      rw [hget b] at hbv
      by_cases hbN : b ≤ N
      · rw [if_pos hbN] at hbv
        omega
      · rw [if_neg hbN] at hbv
        exact absurd hbv (by unfold emptyBin entryBase; omega)
  · -- the stored hash is the key's
    intro i e he
    obtain ⟨hi, rfl⟩ := (hlive i e).mp he
    show i = doHash ⟨stNumcmp, fun n => n⟩ i
    unfold doHash
    dsimp only
    rw [if_neg (by unfold reservedHashVal; omega)]
    omega
  · -- distinct keys are not `EQUAL`
    intro i j e e' he he' hij
    obtain ⟨-, rfl⟩ := (hlive i e).mp he
    obtain ⟨-, rfl⟩ := (hlive j e').mp he'
    simp [KeysApart, stEqual, stNumcmp, hij, Ne.symm hij]

/-- A table with `2 ^ 61 + 1` live entries satisfies the invariant, and `rebuild_table` raises
`"st_table too big"` on it. -/
theorem rebuild_table_raises_too_big :
    let tab : StTable := ⟨62, 63, 3, 2 ^ 61 + 1, 0, 2 ^ 61 + 1,
      some ((List.range (2 ^ 63)).map fun b => if b ≤ 2 ^ 61 then b + entryBase else emptyBin),
      (List.range (2 ^ 61 + 1)).map (fun i => ⟨i, i, 0⟩), 0⟩
    Inv ⟨stNumcmp, fun n => n⟩ tab ∧ ∀ fuel, rebuildTable fuel tab = none :=
  have hinv := inv_identTable (N := 2 ^ 61) (by decide)
  ⟨hinv, rebuildTable_eq_none hinv (Nat.lt_succ_self _)⟩

end CRuby.St
