import CRuby.Str.TrNext

/-!
# `tr_setup_table` and `tr_find`: the intersection of character sets (string.c)

`String#count`, `#delete` and `#squeeze` take several specifications and act on the characters
in all of the sets they describe. `tr_setup_table` adds one specification to three pieces of
state: a table `stable` of 257 flags, one per byte value and one (`stable[256]`) for "every
other multibyte character", and two hashes of code points from 256 up, `*tablep` (`del`) for
the characters every specification so far names and `*ctablep` (`nodel`) for those a negated
one names. `tr_find` reads the answer for one character.

A byte value is right whatever the specifications (`trFind_of_lt`). A multibyte character is
right when the first specification is not negated, or when all are (`trFind_wide`). When the
first one is negated and a later one is not, `stable[256]` is cleared before the later one's
characters are read, so no hash is made for them, and every multibyte character is reported
outside the intersection (`trFind_wide_of_negated_first`): `"α".count("^a", "α")` is `0`.

The proof follows the calls: `SetupEffect` says what one call does to the tables, and
`TablesInv` is what holds after each call of `rb_str_count`, in one of three states (all sets
negated, the first not negated, or mixed). `rbStrCount_eq_countP` is the count of `String#count`
outside the mixed state, and `rbStrCount_eq_countP_lt` the count in it.
-/

namespace CRuby.Str

open CRuby.Enc

/-- `char stable[TR_TABLE_SIZE]` and the caller's hashes `*tablep` and `*ctablep`, `none` for a
null `VALUE`. A hash is the list of its keys: `rb_hash_aset(h, key, Qtrue)` inserts and
`rb_hash_aref` looks up. -/
structure TrTables where
  stable : ℕ → Bool
  del : Option (List UInt32)
  nodel : Option (List UInt32)

/-- The local `table` of `tr_setup_table` and the `ptable` it refines. -/
inductive TrLocal
  /-- `table == 0`. -/
  | none
  /-- `table == *ctablep`; `ptable` is that same hash when it was there before, else 0. -/
  | ctable (ptable : Bool)
  /-- `table == *tablep`, a new hash; `ptable` is the previous `*tablep`. -/
  | table (ptable : Option (List UInt32))

/-- `RSTRING_LEN(str) > 1 && rb_enc_ascget(tr.p, tr.pend, &l, enc) == '^'`: whether the
specification is negated, and the bytes after the `^`. -/
def trParse (enc : Encoding) (str : List UInt8) : Bool × List UInt8 :=
  if 1 < str.length then
    match enc.ascget str with
    | some (94, l) => (true, str.drop l)
    | _ => (false, str)
  else (false, str)

/-- `if (!table && (first || *tablep || stable[256]))`: the hash of the multibyte characters is
made at the first of them, when the sets so far allow any. -/
def trMakeTable (first cflag : Bool) (tabs : TrTables) : TrLocal → TrTables × TrLocal
  | .none =>
    if first || tabs.del.isSome || tabs.stable 256 then
      if cflag then ({ tabs with nodel := some (tabs.nodel.getD []) }, .ctable tabs.nodel.isSome)
      else ({ tabs with del := some [] }, .table tabs.del)
    else (tabs, .none)
  | loc => (tabs, loc)

/-- `if (table && (!ptable || (cflag ^ !NIL_P(rb_hash_aref(ptable, key)))))
rb_hash_aset(table, key, Qtrue);` -/
def trAddWide (cflag : Bool) (c : UInt32) (tabs : TrTables) : TrLocal → TrTables
  | .none => tabs
  | .ctable ptable =>
    -- `ptable` is `table` itself: the lookup sees the keys this call added
    if !ptable || (cflag ^^ (tabs.nodel.getD []).contains c) then
      { tabs with nodel := tabs.nodel.map (·.insert c) }
    else tabs
  | .table ptable =>
    if ptable.isNone || (cflag ^^ (ptable.getD []).contains c) then
      { tabs with del := tabs.del.map (·.insert c) }
    else tabs

/-- One turn of the `while ((c = trnext(&tr, enc)) != errc)` loop of `tr_setup_table`: a byte
value goes into `buf`, a multibyte character into the hash. -/
def trSetupChar (first cflag : Bool) (acc : TrTables × (ℕ → Bool) × TrLocal) (c : UInt32) :
    TrTables × (ℕ → Bool) × TrLocal :=
  if c < 256 then (acc.1, Function.update acc.2.1 c.toNat (!cflag), acc.2.2)
  else
    let (tabs, loc) := trMakeTable first cflag acc.1 acc.2.2
    (trAddWide cflag c tabs loc, acc.2.1, loc)

/-- The start of `tr_setup_table`: the first call sets every flag and `stable[256] = cflag`; a
later specification that is not negated clears `stable[256]`. -/
def trStartStable (first cflag : Bool) (stable : ℕ → Bool) : ℕ → Bool :=
  if first then fun i => if i < 256 then true else cflag
  else if stable 256 && !cflag then Function.update stable 256 false
  else stable

/-- `for (i=0; i<256; i++) stable[i] = stable[i] && buf[i];` -/
def trEndStable (stable buf : ℕ → Bool) : ℕ → Bool :=
  fun i => if i < 256 then stable i && buf i else stable i

/-- **`tr_setup_table(str, stable, first, tablep, ctablep, enc)`**. -/
def trSetupTable (enc : Encoding) (str : List UInt8) (first : Bool) (tabs : TrTables) :
    Except String TrTables := do
  let (cflag, p) := trParse enc str
  let cs ← trChars enc ⟨false, 0, 0, p⟩
  let (tabs, buf, loc) := cs.foldl (trSetupChar first cflag)
    ({ tabs with stable := trStartStable first cflag tabs.stable }, fun _ => cflag, .none)
  let tabs := { tabs with stable := trEndStable tabs.stable buf }
  -- `if (!table && !cflag) *tablep = 0;`
  return match loc with
    | .none => if !cflag then { tabs with del := none } else tabs
    | _ => tabs

/-- **`tr_find(c, table, del, nodel)`**. -/
def trFind (c : UInt32) (table : ℕ → Bool) (del nodel : Option (List UInt32)) : Bool :=
  if c < 256 then table c.toNat
  else
    match del with
    | some d =>
      if d.contains c && (nodel.isNone || !(nodel.getD []).contains c) then true
      else table 256
    | none => if nodel.isSome && (nodel.getD []).contains c then false else table 256

/-- The tables of `rb_str_count(argc, argv, str)`: `tr_setup_table` with `first` for `argv[0]`
and without for the others, from `del = nodel = 0`. `table` is not initialised before; the first
call sets all its flags. -/
def rbStrCountTables (enc : Encoding) : List (List UInt8) → Except String TrTables
  | [] => .error "wrong number of arguments (given 0, expected 1+)"
  | s :: rest => do
    let tabs ← trSetupTable enc s true ⟨fun _ => false, none, none⟩
    rest.foldlM (fun tabs s => trSetupTable enc s false tabs) tabs

/-! ## One specification -/

section Fold

variable (first cflag : Bool)

/-- `trSetupChar` on a multibyte character: the tables and the local `table`. -/
def trWideStep (acc : TrTables × TrLocal) (c : UInt32) : TrTables × TrLocal :=
  let (tabs, loc) := trMakeTable first cflag acc.1 acc.2
  (trAddWide cflag c tabs loc, loc)

/-- The byte values of a specification set their flags in `buf`; the rest of the state goes
through the multibyte characters alone. -/
theorem foldl_trSetupChar (cs : List UInt32) (acc : TrTables × (ℕ → Bool) × TrLocal) :
    cs.foldl (trSetupChar first cflag) acc =
      (((cs.filter (256 ≤ ·)).foldl (trWideStep first cflag) (acc.1, acc.2.2)).1,
        cs.foldl (fun buf c => if c < 256 then Function.update buf c.toNat (!cflag) else buf)
          acc.2.1,
        ((cs.filter (256 ≤ ·)).foldl (trWideStep first cflag) (acc.1, acc.2.2)).2) := by
  induction cs generalizing acc with
  | nil => rfl
  | cons c cs ih =>
    obtain ⟨tabs, buf, loc⟩ := acc
    by_cases hc : c < 256
    · have hw : ¬256 ≤ c := fun h => absurd hc (UInt32.not_lt.mpr h)
      simp only [List.foldl_cons, trSetupChar, if_pos hc, ih, List.filter_cons, hw,
        decide_false]
      rfl
    · have hw : 256 ≤ c := UInt32.not_lt.mp hc
      simp only [List.foldl_cons, trSetupChar, if_neg hc, ih, List.filter_cons, hw,
        decide_true, if_true]
      rfl

/-- `buf` after the loop: `!cflag` at the byte values of the specification, `cflag` at the
others. -/
theorem foldl_buf_apply (cs : List UInt32) (buf : ℕ → Bool) (i : ℕ) :
    cs.foldl (fun buf c => if c < 256 then Function.update buf c.toNat (!cflag) else buf) buf i =
      if ∃ c ∈ cs, c < 256 ∧ c.toNat = i then !cflag else buf i := by
  induction cs generalizing buf with
  | nil => simp
  | cons c cs ih =>
    rw [List.foldl_cons, ih]
    by_cases hin : ∃ c' ∈ cs, c' < 256 ∧ c'.toNat = i
    · rw [if_pos hin, if_pos (by obtain ⟨c', hc', h⟩ := hin; exact ⟨c', by simp [hc'], h⟩)]
    rw [if_neg hin]
    by_cases hc : c < 256 ∧ c.toNat = i
    · have hex : ∃ c' ∈ c :: cs, c' < 256 ∧ c'.toNat = i := ⟨c, List.mem_cons_self .., hc⟩
      rw [if_pos hex]
      simp only [if_pos hc.1]
      rw [← hc.2, Function.update_self]
    · have hnot : ¬∃ c' ∈ c :: cs, c' < 256 ∧ c'.toNat = i := by
        rintro ⟨c', hc', h⟩
        rcases List.mem_cons.mp hc' with rfl | hc'
        · exact hc h
        · exact hin ⟨c', hc', h⟩
      rw [if_neg hnot]
      split_ifs with hlt
      · exact Function.update_of_ne (fun heq => hc ⟨hlt, heq.symm⟩) _ _
      · rfl

/-- Before the hash is made, a multibyte character that does not make it changes nothing. -/
theorem foldl_trWideStep_unmade {tabs : TrTables}
    (hmade : (first || tabs.del.isSome || tabs.stable 256) = false) (ws : List UInt32) :
    ws.foldl (trWideStep first cflag) (tabs, .none) = (tabs, .none) := by
  induction ws with
  | nil => rfl
  | cons c ws ih =>
    have hstep : trWideStep first cflag (tabs, .none) c = (tabs, .none) := by
      simp only [trWideStep, trMakeTable, hmade, Bool.false_eq_true, if_false, trAddWide]
    rw [List.foldl_cons, hstep, ih]

/-- The first multibyte character makes the hash, and the rest go into it. -/
theorem trWideStep_made {tabs : TrTables}
    (hmade : (first || tabs.del.isSome || tabs.stable 256) = true) (c : UInt32) :
    trWideStep first cflag (tabs, .none) c =
      trWideStep first cflag (trMakeTable first cflag tabs .none) c := by
  simp only [trWideStep, trMakeTable, hmade, if_true]
  split_ifs <;> rfl

end Fold

/-- Into the hash `*ctablep` of a negated specification: every character goes in. -/
theorem foldl_trWideStep_ctable (first : Bool) (tabs : TrTables) (p : Bool) (ws : List UInt32) :
    ∀ N : List UInt32, ∃ N' : List UInt32,
      ws.foldl (trWideStep first true) ({ tabs with nodel := some N }, .ctable p) =
        ({ tabs with nodel := some N' }, .ctable p) ∧ ∀ c, N'.contains c = (N.contains c || ws.contains c) := by
  induction ws with
  | nil => exact fun N => ⟨N, rfl, by simp⟩
  | cons c ws ih =>
    intro N
    have hstep : trWideStep first true ({ tabs with nodel := some N }, .ctable p) c =
        ({ tabs with nodel := some (if !p || (true ^^ N.contains c) then N.insert c else N) },
          .ctable p) := by
      simp only [trWideStep, trMakeTable, trAddWide, Option.getD_some]
      by_cases hadd : (!p || (true ^^ N.contains c)) = true
      · simp only [hadd, if_true]
        rfl
      · simp only [hadd, Bool.false_eq_true, if_false]
    -- the character is in the hash afterwards, whether or not it was added
    obtain ⟨N', hfold, hmem⟩ := ih (if !p || (true ^^ N.contains c) then N.insert c else N)
    refine ⟨N', by rw [List.foldl_cons, hstep, hfold], fun d => ?_⟩
    rw [hmem d]
    by_cases hd : d = c
    · subst hd
      split_ifs with hadd <;> simp_all
    · split_ifs <;> simp [hd, List.mem_insert_iff]

/-- Into the new hash `*tablep` of a specification that is not negated: the characters that
the previous hash has, or all when there was none. -/
theorem foldl_trWideStep_table (first : Bool) (tabs : TrTables) (p : Option (List UInt32))
    (ws : List UInt32) :
    ∀ D : List UInt32, ∃ D' : List UInt32,
      ws.foldl (trWideStep first false) ({ tabs with del := some D }, .table p) =
        ({ tabs with del := some D' }, .table p) ∧
      ∀ c, D'.contains c = (D.contains c || (ws.contains c && (p.isNone || (p.getD []).contains c))) := by
  induction ws with
  | nil => exact fun D => ⟨D, rfl, by simp⟩
  | cons c ws ih =>
    intro D
    have hstep : trWideStep first false ({ tabs with del := some D }, .table p) c =
        ({ tabs with del := some (if p.isNone || (false ^^ (p.getD []).contains c) then
          D.insert c else D) }, .table p) := by
      simp only [trWideStep, trMakeTable, trAddWide]
      by_cases hadd : (p.isNone || (false ^^ (p.getD []).contains c)) = true
      · simp only [hadd, if_true]
        rfl
      · simp only [hadd, Bool.false_eq_true, if_false]
    obtain ⟨D', hfold, hmem⟩ :=
      ih (if p.isNone || (false ^^ (p.getD []).contains c) then D.insert c else D)
    refine ⟨D', by rw [List.foldl_cons, hstep, hfold], fun d => ?_⟩
    rw [hmem d]
    by_cases hd : d = c
    · subst hd
      cases p <;> split_ifs <;> simp_all
    · split_ifs <;> simp [hd, List.mem_insert_iff]

theorem trStartStable_lt (first cflag : Bool) (stable : ℕ → Bool) {i : ℕ} (hi : i < 256) :
    trStartStable first cflag stable i = (first || stable i) := by
  unfold trStartStable
  split_ifs with hf
  · simp [hi, hf]
  · rw [Function.update_of_ne (by omega)]
    simp [hf]
  · simp [hf]

theorem trStartStable_256 (first cflag : Bool) (stable : ℕ → Bool) :
    trStartStable first cflag stable 256 = if first then cflag else stable 256 && cflag := by
  unfold trStartStable
  split_ifs with hf hs <;> simp_all

/-- `buf[c]` after the loop: whether `c` is in the set the specification describes. -/
theorem trSetupBuf_apply (cflag : Bool) (cs : List UInt32) {c : UInt32} (hc : c < 256) :
    cs.foldl (fun buf c => if c < 256 then Function.update buf c.toNat (!cflag) else buf)
      (fun _ => cflag) c.toNat = (cflag ^^ cs.contains c) := by
  rw [foldl_buf_apply]
  by_cases hin : c ∈ cs
  · rw [if_pos ⟨c, hin, hc, rfl⟩]
    simp [hin]
  · have hnot : ¬∃ c' ∈ cs, c' < 256 ∧ c'.toNat = c.toNat := by
      rintro ⟨c', hc', -, heq⟩
      exact hin (UInt32.toNat_inj.mp heq ▸ hc')
    rw [if_neg hnot]
    simp [hin]

/-- **The multibyte characters of one specification**: no hash when there are none or the sets
so far allow none; else `*ctablep` gains them all, or a new `*tablep` keeps those of the old one
(all, when there was none). -/
theorem foldl_trWideStep_spec (first cflag : Bool) (tabs : TrTables) (ws : List UInt32) :
    (ws.foldl (trWideStep first cflag) (tabs, .none) = (tabs, .none) ∧
        (ws = [] ∨ (first || tabs.del.isSome || tabs.stable 256) = false)) ∨
    (ws ≠ [] ∧ (first || tabs.del.isSome || tabs.stable 256) = true ∧ cflag = true ∧
      ∃ N p, ws.foldl (trWideStep first cflag) (tabs, .none) =
          ({ tabs with nodel := some N }, .ctable p) ∧
        ∀ c, N.contains c = ((tabs.nodel.getD []).contains c || ws.contains c)) ∨
    (ws ≠ [] ∧ (first || tabs.del.isSome || tabs.stable 256) = true ∧ cflag = false ∧
      ∃ D, ws.foldl (trWideStep first cflag) (tabs, .none) =
          ({ tabs with del := some D }, .table tabs.del) ∧
        ∀ c, D.contains c = (ws.contains c && (tabs.del.isNone || (tabs.del.getD []).contains c))) := by
  rcases ws with _ | ⟨c, ws⟩
  · exact .inl ⟨rfl, .inl rfl⟩
  cases hmade : (first || tabs.del.isSome || tabs.stable 256)
  · exact .inl ⟨foldl_trWideStep_unmade first cflag hmade _, .inr rfl⟩
  rw [List.foldl_cons, trWideStep_made first cflag hmade, ← List.foldl_cons]
  cases cflag
  · -- a new `*tablep`
    obtain ⟨D, hfold, hmem⟩ := foldl_trWideStep_table first tabs tabs.del (c :: ws) []
    have hmake : trMakeTable first false tabs .none = ({ tabs with del := some [] }, .table tabs.del) := by
      simp [trMakeTable, hmade]
    refine .inr (.inr ⟨List.cons_ne_nil _ _, rfl, rfl, D, by rw [hmake, hfold], fun d => ?_⟩)
    simpa using hmem d
  · -- `*ctablep`, made or kept
    obtain ⟨N, hfold, hmem⟩ :=
      foldl_trWideStep_ctable first tabs tabs.nodel.isSome (c :: ws) (tabs.nodel.getD [])
    have hmake : trMakeTable first true tabs .none =
        ({ tabs with nodel := some (tabs.nodel.getD []) }, .ctable tabs.nodel.isSome) := by
      simp [trMakeTable, hmade]
    exact .inr (.inl ⟨List.cons_ne_nil _ _, rfl, rfl, N, _, by rw [hmake, hfold], hmem⟩)

theorem trEndStable_256 (stable buf : ℕ → Bool) : trEndStable stable buf 256 = stable 256 := by
  rw [trEndStable, if_neg (by omega)]

/-- What `tr_setup_table` does with the characters `cs` of a specification (negated when
`cflag`). The hash of multibyte characters is made when it is the first call or the sets so far
allow some multibyte character, read after `stable[256]` is updated (`made`). -/
structure SetupEffect (first cflag : Bool) (cs : List UInt32) (tabs tabs' : TrTables) : Prop where
  byte : ∀ c : UInt32, c < 256 →
    tabs'.stable c.toNat = ((first || tabs.stable c.toNat) && (cflag ^^ cs.contains c))
  wide : tabs'.stable 256 = if first then cflag else tabs.stable 256 && cflag
  nodel : ∀ c, (tabs'.nodel.getD []).contains c = ((tabs.nodel.getD []).contains c ||
    ((first || tabs.del.isSome || tabs'.stable 256) && cflag &&
      (cs.filter (256 ≤ ·)).contains c))
  del_of_negated : cflag = true → tabs'.del = tabs.del
  del : cflag = false → ∀ c, (tabs'.del.getD []).contains c =
    ((first || tabs.del.isSome || tabs'.stable 256) && (cs.filter (256 ≤ ·)).contains c &&
      (tabs.del.isNone || (tabs.del.getD []).contains c))
  del_isSome : cflag = false → tabs'.del.isSome = true →
    (first || tabs.del.isSome || tabs'.stable 256) = true

/-- **`tr_setup_table` adds one specification**: its characters are those `trnext` hands out,
and the tables change as `SetupEffect` says. -/
theorem trSetupTable_spec {enc : Encoding} {str : List UInt8} {first : Bool}
    {tabs tabs' : TrTables} (h : trSetupTable enc str first tabs = .ok tabs') :
    ∃ cs, trChars enc ⟨false, 0, 0, (trParse enc str).2⟩ = .ok cs ∧
      SetupEffect first (trParse enc str).1 cs tabs tabs' := by
  rcases hp : trParse enc str with ⟨cflag, p⟩
  unfold trSetupTable at h
  rw [hp] at h
  obtain ⟨cs, hcs, h⟩ := Except.bind_eq_ok h
  refine ⟨cs, hcs, ?_⟩
  rw [foldl_trSetupChar] at h
  set tabs0 : TrTables := { tabs with stable := trStartStable first cflag tabs.stable } with htabs0
  set buf := cs.foldl (fun buf c => if c < 256 then Function.update buf c.toNat (!cflag) else buf)
    (fun _ => cflag) with hbuf
  have hst0 : tabs0.stable = trStartStable first cflag tabs.stable := rfl
  have h256 : tabs0.stable 256 = if first then cflag else tabs.stable 256 && cflag := by
    rw [hst0, trStartStable_256]
  -- the byte flags do not depend on the hashes
  have hbyte : ∀ c : UInt32, c < 256 → trEndStable tabs0.stable buf c.toNat =
      ((first || tabs.stable c.toNat) && (cflag ^^ cs.contains c)) := by
    intro c hc
    have hlt : c.toNat < 256 := by simpa [UInt32.lt_iff_toNat_lt] using hc
    rw [trEndStable, if_pos hlt, hst0, trStartStable_lt first cflag tabs.stable hlt,
      hbuf, trSetupBuf_apply cflag cs hc]
  have hend256 : trEndStable tabs0.stable buf 256 =
      if first then cflag else tabs.stable 256 && cflag := by
    rw [trEndStable_256, h256]
  have hmade' : (first || tabs.del.isSome || trEndStable tabs0.stable buf 256) =
      (first || tabs0.del.isSome || tabs0.stable 256) := by
    rw [trEndStable_256]
  rcases foldl_trWideStep_spec first cflag tabs0 (cs.filter (256 ≤ ·)) with
    ⟨hfold, hnone⟩ | ⟨hne, hmade, rfl, N, q, hfold, hmem⟩ | ⟨hne, hmade, rfl, D, hfold, hmem⟩
  · -- no hash: `*tablep` is cleared when the specification is not negated
    rw [hfold] at h
    dsimp only at h
    have hW : ∀ c, ((first || tabs0.del.isSome || tabs0.stable 256) &&
        (cs.filter (256 ≤ ·)).contains c) = false := by
      intro c
      rcases hnone with hnil | hm
      · rw [hnil, List.contains_nil, Bool.and_false]
      · rw [hm, Bool.false_and]
    cases cflag
    · simp only [Bool.not_false, if_true] at h
      obtain rfl := Except.ok.inj h
      refine ⟨hbyte, hend256, fun c => ?_, fun h => (by cases h), fun _ c => ?_,
        fun _ h => (by cases h)⟩
      · show (tabs0.nodel.getD []).contains c = _
        rw [Bool.and_false, Bool.false_and, Bool.or_false]
      · show ([] : List UInt32).contains c = _
        rw [hmade', hW c, Bool.false_and, List.contains_nil]
    · simp only [Bool.not_true, Bool.false_eq_true, if_false] at h
      obtain rfl := Except.ok.inj h
      refine ⟨hbyte, hend256, fun c => ?_, fun _ => rfl, fun h => (by cases h),
        fun h => (by cases h)⟩
      show (tabs0.nodel.getD []).contains c = _
      rw [Bool.and_true, hmade', hW c, Bool.or_false]
  · -- the negated set's multibyte characters join `*ctablep`
    rw [hfold] at h
    obtain rfl := Except.ok.inj h
    refine ⟨hbyte, hend256, fun c => ?_, fun _ => rfl, fun h => (by cases h), fun h => (by cases h)⟩
    show N.contains c = _
    rw [hmem c, hmade', hmade, Bool.true_and, Bool.true_and]
  · -- a new `*tablep`
    rw [hfold] at h
    obtain rfl := Except.ok.inj h
    refine ⟨hbyte, hend256, fun c => ?_, fun h => (by cases h), fun _ c => ?_,
      fun _ _ => (by rw [hmade', hmade])⟩
    · show (tabs0.nodel.getD []).contains c = _
      rw [Bool.and_false, Bool.false_and, Bool.or_false]
    · show D.contains c = _
      rw [hmem c, hmade', hmade, Bool.true_and]

/-! ## All the specifications -/

/-- `c` is in the set `(cflag, cs)`: one of the characters `cs`, or none of them after a `^`. -/
def trSetMem (x : Bool × List UInt32) (c : UInt32) : Bool := x.1 ^^ x.2.contains c

/-- The sets the specifications describe, as `String#count` documents them: each is its
characters with the ranges expanded, or all other characters after a leading `^`. -/
def trSets (enc : Encoding) (specs : List (List UInt8)) :
    Except String (List (Bool × List UInt32)) :=
  specs.mapM fun s => ((trParse enc s).1, ·) <$> trChars enc ⟨false, 0, 0, (trParse enc s).2⟩

/-- All sets so far are negated: `stable[256]` is set, there is no `*tablep`, and `*ctablep`
has their multibyte characters. -/
def TablesNeg (tabs : TrTables) (sets : List (Bool × List UInt32)) : Prop :=
  sets.all (·.1) = true ∧ tabs.stable 256 = true ∧ tabs.del = none ∧
    ∀ c : UInt32, 256 ≤ c → (tabs.nodel.getD []).contains c = sets.any (·.2.contains c)

/-- The first set is not negated: `*tablep` has the multibyte characters that every set that
is not negated names, and while it is there `*ctablep` has those a negated set names. -/
def TablesPos (tabs : TrTables) (sets : List (Bool × List UInt32)) : Prop :=
  sets.head?.map (·.1) = some false ∧ tabs.stable 256 = false ∧
    (∀ c : UInt32, 256 ≤ c →
      (tabs.del.getD []).contains c = sets.all (fun x => x.1 || x.2.contains c)) ∧
    (tabs.del.isSome = true → ∀ c : UInt32, 256 ≤ c →
      (tabs.nodel.getD []).contains c = sets.any (fun x => x.1 && x.2.contains c))

/-- The first set is negated and a later one is not: neither `stable[256]` nor `*tablep`. -/
def TablesMixed (tabs : TrTables) (sets : List (Bool × List UInt32)) : Prop :=
  sets.head?.map (·.1) = some true ∧ sets.any (!·.1) = true ∧ tabs.stable 256 = false ∧
    tabs.del = none

/-- **The invariant of `rb_str_count`'s tables** after the sets `sets`: the byte flags are the
intersection, and the multibyte state is one of the three above. -/
structure TablesInv (tabs : TrTables) (sets : List (Bool × List UInt32)) : Prop where
  ne_nil : sets ≠ []
  byte : ∀ c : UInt32, c < 256 → tabs.stable c.toNat = sets.all (trSetMem · c)
  wide : TablesNeg tabs sets ∨ TablesPos tabs sets ∨ TablesMixed tabs sets

/-- For a multibyte character, the filtered list of a specification's characters is the list. -/
theorem contains_filter_wide {cs : List UInt32} {c : UInt32} (hc : 256 ≤ c) :
    (cs.filter (256 ≤ ·)).contains c = cs.contains c := by
  simp [hc]

section Step

variable {cflag : Bool} {cs : List UInt32} {tabs tabs' : TrTables} {sets : List (Bool × List UInt32)}

/-- A specification that is not negated and finds no hash to refine clears `*tablep`. -/
theorem SetupEffect.del_eq_none {first : Bool} (he : SetupEffect first false cs tabs tabs')
    (hmade : (first || tabs.del.isSome || tabs'.stable 256) = false) : tabs'.del = none := by
  cases hd : tabs'.del with
  | none => rfl
  | some d =>
    have := he.del_isSome rfl (by rw [hd]; rfl)
    rw [hmade] at this
    cases this

theorem head?_append_map_fst {sets : List (Bool × List UInt32)} (hne : sets ≠ [])
    (x : Bool × List UInt32) : (sets ++ [x]).head?.map (·.1) = sets.head?.map (·.1) := by
  rw [List.head?_append_of_ne_nil _ hne]

/-- **The first specification** starts the invariant: all negated if it is, else the first set
not negated. -/
theorem TablesInv.first (he : SetupEffect true cflag cs ⟨fun _ => false, none, none⟩ tabs') :
    TablesInv tabs' [(cflag, cs)] := by
  refine ⟨List.cons_ne_nil _ _, fun c hc => ?_, ?_⟩
  · rw [he.byte c hc]
    simp [trSetMem]
  cases cflag
  · refine .inr (.inl ⟨rfl, by rw [he.wide]; rfl, fun c hc => ?_, fun _ c _ => ?_⟩)
    · rw [he.del rfl c, contains_filter_wide hc]
      simp
    · rw [he.nodel c]
      simp
  · refine .inl ⟨rfl, by rw [he.wide]; rfl, he.del_of_negated rfl, fun c hc => ?_⟩
    rw [he.nodel c, contains_filter_wide hc]
    simp

/-- After negated sets only: another negated one keeps them so, one that is not makes the
state mixed. -/
theorem TablesNeg.step (hinv : TablesNeg tabs sets) (hne : sets ≠ [])
    (he : SetupEffect false cflag cs tabs tabs') :
    TablesNeg tabs' (sets ++ [(cflag, cs)]) ∨ TablesMixed tabs' (sets ++ [(cflag, cs)]) := by
  obtain ⟨hall, h256, hdel, hnodel⟩ := hinv
  have h256' : tabs'.stable 256 = cflag := by rw [he.wide, h256]; rfl
  cases cflag
  · -- the first set that is not negated
    obtain ⟨y, ys, rfl⟩ := List.exists_cons_of_ne_nil hne
    have hy : y.1 = true := (List.all_eq_true.mp hall) y (List.mem_cons_self ..)
    refine .inr ⟨by simp [hy], by simp, h256', he.del_eq_none ?_⟩
    rw [hdel, h256']
    rfl
  · refine .inl ⟨by simp [hall], h256', by rw [he.del_of_negated rfl, hdel], fun c hc => ?_⟩
    rw [he.nodel c, hnodel c hc, hdel, h256', contains_filter_wide hc]
    simp [List.any_append]

/-- After a first set that is not negated, every specification keeps that state. -/
theorem TablesPos.step (hinv : TablesPos tabs sets) (hne : sets ≠ [])
    (he : SetupEffect false cflag cs tabs tabs') : TablesPos tabs' (sets ++ [(cflag, cs)]) := by
  obtain ⟨hhead, h256, hdel, hnodel⟩ := hinv
  have h256' : tabs'.stable 256 = false := by rw [he.wide, h256]; rfl
  -- the hash is made exactly when `*tablep` is there
  have hmade : (false || tabs.del.isSome || tabs'.stable 256) = tabs.del.isSome := by
    rw [h256']
    simp
  refine ⟨by rw [head?_append_map_fst hne, hhead], h256', fun c hc => ?_, fun hsome c hc => ?_⟩
  · cases cflag
    · rw [he.del rfl c, hmade, contains_filter_wide hc, List.all_append, ← hdel c hc]
      cases tabs.del <;> simp [Bool.and_comm]
    · rw [he.del_of_negated rfl, hdel c hc]
      simp [List.all_append]
  · cases cflag
    · have htabs : tabs.del.isSome = true := by rw [← hmade]; exact he.del_isSome rfl hsome
      rw [he.nodel c, hnodel htabs c hc]
      simp [List.any_append]
    · have htabs : tabs.del.isSome = true := by rwa [he.del_of_negated rfl] at hsome
      rw [he.nodel c, hnodel htabs c hc, hmade, htabs, contains_filter_wide hc]
      simp [List.any_append]

/-- Once mixed, always mixed: nothing makes a hash for the multibyte characters again. -/
theorem TablesMixed.step (hinv : TablesMixed tabs sets) (hne : sets ≠ [])
    (he : SetupEffect false cflag cs tabs tabs') : TablesMixed tabs' (sets ++ [(cflag, cs)]) := by
  obtain ⟨hhead, hany, h256, hdel⟩ := hinv
  have h256' : tabs'.stable 256 = false := by rw [he.wide, h256]; rfl
  refine ⟨by rw [head?_append_map_fst hne, hhead], by simp [List.any_append, hany], h256', ?_⟩
  cases cflag
  · exact he.del_eq_none (by rw [hdel, h256']; rfl)
  · rw [he.del_of_negated rfl, hdel]

/-- **Every later specification keeps the invariant.** -/
theorem TablesInv.step (hinv : TablesInv tabs sets) (he : SetupEffect false cflag cs tabs tabs') :
    TablesInv tabs' (sets ++ [(cflag, cs)]) := by
  refine ⟨by simp, fun c hc => ?_, ?_⟩
  · rw [he.byte c hc, hinv.byte c hc]
    simp [List.all_append, trSetMem]
  rcases hinv.wide with hneg | hpos | hmix
  · rcases hneg.step hinv.ne_nil he with hneg' | hmix'
    · exact .inl hneg'
    · exact .inr (.inr hmix')
  · exact .inr (.inl (hpos.step hinv.ne_nil he))
  · exact .inr (.inr (hmix.step hinv.ne_nil he))

end Step

/-! ## The answer of `tr_find` -/

theorem trSets_cons {enc : Encoding} {s : List UInt8} {rest : List (List UInt8)}
    {cs : List UInt32} {sets : List (Bool × List UInt32)}
    (hcs : trChars enc ⟨false, 0, 0, (trParse enc s).2⟩ = .ok cs) (hrest : trSets enc rest = .ok sets) :
    trSets enc (s :: rest) = .ok (((trParse enc s).1, cs) :: sets) := by
  unfold trSets at hrest ⊢
  rw [List.mapM_cons, hrest, hcs]
  rfl

/-- The specifications after the first keep the invariant (`for (i=1; i<argc; i++)`). -/
theorem foldlM_trSetupTable_inv {enc : Encoding} (rest : List (List UInt8)) {tabs tabs' : TrTables}
    {sets : List (Bool × List UInt32)} (hinv : TablesInv tabs sets)
    (h : rest.foldlM (fun tabs s => trSetupTable enc s false tabs) tabs = .ok tabs') :
    ∃ sets', trSets enc rest = .ok sets' ∧ TablesInv tabs' (sets ++ sets') := by
  induction rest generalizing tabs sets with
  | nil =>
    cases h
    exact ⟨[], rfl, by rwa [List.append_nil]⟩
  | cons s rest ih =>
    rw [List.foldlM_cons] at h
    obtain ⟨tabs1, h1, hrest⟩ := Except.bind_eq_ok h
    obtain ⟨cs, hcs, he⟩ := trSetupTable_spec h1
    obtain ⟨sets', hsets', hinv'⟩ := ih (hinv.step he) hrest
    refine ⟨_, trSets_cons hcs hsets', ?_⟩
    rwa [List.append_assoc, List.singleton_append] at hinv'

/-- **The tables of `rb_str_count` keep the invariant** over the sets of the specifications. -/
theorem rbStrCountTables_inv {enc : Encoding} {specs : List (List UInt8)} {tabs : TrTables}
    (h : rbStrCountTables enc specs = .ok tabs) :
    ∃ sets, trSets enc specs = .ok sets ∧ TablesInv tabs sets := by
  cases specs with
  | nil => cases h
  | cons s rest =>
    obtain ⟨tabs1, h1, hrest⟩ := Except.bind_eq_ok h
    obtain ⟨cs, hcs, he⟩ := trSetupTable_spec h1
    obtain ⟨sets', hsets', hinv⟩ := foldlM_trSetupTable_inv rest (TablesInv.first he) hrest
    exact ⟨_, trSets_cons hcs hsets', hinv⟩

/-- Membership in every set, split into the sets that are not negated and the negated ones. -/
theorem all_trSetMem (sets : List (Bool × List UInt32)) (c : UInt32) :
    sets.all (trSetMem · c) =
      (sets.all (fun x => x.1 || x.2.contains c) && !sets.any (fun x => x.1 && x.2.contains c)) := by
  induction sets with
  | nil => rfl
  | cons x sets ih =>
    rw [List.all_cons, List.any_cons, List.all_cons, ih, trSetMem]
    cases x.1 <;> cases x.2.contains c <;> simp

theorem contains_getD_of_isNone {o : Option (List UInt32)} (h : o.isNone = true) (c : UInt32) :
    (o.getD []).contains c = false := by
  cases o
  · rfl
  · cases h

section Find

variable {tabs : TrTables} {sets : List (Bool × List UInt32)} {c : UInt32}

/-- A byte value reads its flag, which is the intersection. -/
theorem trFind_of_lt (hinv : TablesInv tabs sets) (hc : c < 256) :
    trFind c tabs.stable tabs.del tabs.nodel = sets.all (trSetMem · c) := by
  unfold trFind
  rw [if_pos hc, hinv.byte c hc]

/-- Only negated sets: a multibyte character is in all of them unless `*ctablep` has it. -/
theorem TablesNeg.trFind (hneg : TablesNeg tabs sets) (hc : 256 ≤ c) :
    CRuby.Str.trFind c tabs.stable tabs.del tabs.nodel = sets.all (trSetMem · c) := by
  obtain ⟨hall, h256, hdel, hnodel⟩ := hneg
  have hfst : ∀ x ∈ sets, x.1 = true := fun x hx => List.all_eq_true.mp hall x hx
  have hpos : sets.all (fun x => x.1 || x.2.contains c) = true :=
    List.all_eq_true.mpr fun x hx => by rw [hfst x hx, Bool.true_or]
  have hneg : sets.any (fun x => x.1 && x.2.contains c) = sets.any (·.2.contains c) := by
    rw [Bool.eq_iff_iff, List.any_eq_true, List.any_eq_true]
    exact exists_congr fun x => and_congr_right fun hx => by rw [hfst x hx, Bool.true_and]
  unfold CRuby.Str.trFind
  rw [all_trSetMem, hpos, hneg, ← hnodel c hc, if_neg (UInt32.not_lt.mpr hc), hdel, h256]
  cases tabs.nodel <;> simp

/-- The first set not negated: `*tablep` holds what the sets that are not negated allow, and
`*ctablep` removes what a negated one names. -/
theorem TablesPos.trFind (hpos : TablesPos tabs sets) (hc : 256 ≤ c) :
    CRuby.Str.trFind c tabs.stable tabs.del tabs.nodel = sets.all (trSetMem · c) := by
  obtain ⟨-, h256, hdel, hnodel⟩ := hpos
  unfold CRuby.Str.trFind
  rw [all_trSetMem, ← hdel c hc, if_neg (UInt32.not_lt.mpr hc), h256]
  cases hd : tabs.del with
  | none => simp
  | some d =>
    rw [← hnodel (by rw [hd]; rfl) c hc]
    cases tabs.nodel <;> simp

/-- **`tr_find` answers the intersection** of the sets for a byte value, and for a multibyte
character when the first set is not negated or all are. -/
theorem trFind_wide (hinv : TablesInv tabs sets)
    (hsets : sets.head?.map (·.1) = some false ∨ sets.all (·.1) = true) :
    trFind c tabs.stable tabs.del tabs.nodel = sets.all (trSetMem · c) := by
  by_cases hc : c < 256
  · exact trFind_of_lt hinv hc
  have hc : 256 ≤ c := UInt32.not_lt.mp hc
  rcases hinv.wide with hneg | hpos | ⟨hhead, hany, -, -⟩
  · exact hneg.trFind hc
  · exact hpos.trFind hc
  · -- a mixed state has a negated first set and one that is not: neither alternative holds
    exfalso
    rcases hsets with hfalse | hall
    · rw [hhead] at hfalse
      cases hfalse
    · obtain ⟨x, hx, hneg⟩ := List.any_eq_true.mp hany
      rw [List.all_eq_true.mp hall x hx] at hneg
      cases hneg

/-- A negated first set and a later one that is not: no multibyte character is found. -/
theorem trFind_wide_of_negated_first (hinv : TablesInv tabs sets)
    (hfirst : sets.head?.map (·.1) = some true) (hany : sets.any (!·.1) = true) (hc : 256 ≤ c) :
    trFind c tabs.stable tabs.del tabs.nodel = false := by
  have hmix : TablesMixed tabs sets := by
    rcases hinv.wide with ⟨hall, -⟩ | ⟨hhead, -⟩ | hmix
    · obtain ⟨x, hx, hneg⟩ := List.any_eq_true.mp hany
      rw [List.all_eq_true.mp hall x hx] at hneg
      cases hneg
    · rw [hfirst] at hhead
      cases hhead
    · exact hmix
  obtain ⟨-, -, h256, hdel⟩ := hmix
  unfold trFind
  rw [if_neg (UInt32.not_lt.mpr hc), hdel, h256]
  simp

end Find

/-! ## `rb_str_count` -/

theorem length_drop_codepointLen_lt {enc : Encoding} {s : List UInt8} {c : UInt32} {n : ℕ}
    (h : enc.codepointLen s = .ok (c, n)) : (s.drop n).length < s.length := by
  obtain ⟨hne, hn⟩ := codepointLen_pos h
  have := List.length_pos_of_ne_nil hne
  rw [List.length_drop]
  omega

/-- The loop of `rb_str_count` over the bytes `s`, with `i` characters counted so far: an ASCII
byte of an ASCII-compatible encoding reads `table`, any other character `tr_find`. -/
def trCount (enc : Encoding) (tabs : TrTables) (s : List UInt8) (i : ℕ) : Except String ℕ :=
  match s with
  | [] => .ok i
  | b :: rest =>
    if enc.asciicompat && b < 0x80 then
      trCount enc tabs rest (if tabs.stable b.toNat then i + 1 else i)
    else
      match h : enc.codepointLen (b :: rest) with
      | .error e => .error e
      | .ok (c, clen) =>
        trCount enc tabs ((b :: rest).drop clen)
          (if trFind c tabs.stable tabs.del tabs.nodel then i + 1 else i)
termination_by s.length
decreasing_by
  · simp
  · exact length_drop_codepointLen_lt h

/-- **`rb_str_count(argc, argv, str)`** with the specifications `specs` (`argv`); the path for a
single one-byte specification is not modelled. -/
def rbStrCount (enc : Encoding) (str : List UInt8) (specs : List (List UInt8)) :
    Except String ℕ := do
  let tabs ← rbStrCountTables enc specs
  trCount enc tabs str 0

/-- The characters of `str` as `rb_str_count` reads them. -/
def countChars (enc : Encoding) (s : List UInt8) : Except String (List UInt32) :=
  match s with
  | [] => .ok []
  | b :: rest =>
    if enc.asciicompat && b < 0x80 then (b.toUInt32 :: ·) <$> countChars enc rest
    else
      match h : enc.codepointLen (b :: rest) with
      | .error e => .error e
      | .ok (c, clen) => (c :: ·) <$> countChars enc ((b :: rest).drop clen)
termination_by s.length
decreasing_by
  · simp
  · exact length_drop_codepointLen_lt h

theorem countChars_of_ok {enc : Encoding} {b : UInt8} {rest : List UInt8} {c : UInt32} {clen : ℕ}
    (hasc : ¬(enc.asciicompat && b < 0x80) = true) (h : enc.codepointLen (b :: rest) = .ok (c, clen)) :
    countChars enc (b :: rest) = (c :: ·) <$> countChars enc ((b :: rest).drop clen) := by
  rw [countChars, if_neg hasc]
  split
  · simp_all
  · rename_i c' clen' h'
    obtain ⟨rfl, rfl⟩ := Prod.mk.inj (Except.ok.inj (h.symm.trans h'))
    rfl

theorem countChars_of_error {enc : Encoding} {b : UInt8} {rest : List UInt8} {e : String}
    (hasc : ¬(enc.asciicompat && b < 0x80) = true) (h : enc.codepointLen (b :: rest) = .error e) :
    countChars enc (b :: rest) = .error e := by
  rw [countChars, if_neg hasc]
  split
  · rename_i e' h'
    rw [h] at h'
    cases h'
    rfl
  · simp_all

/-- An ASCII byte reads the same flag through `table[c]` as through `tr_find`. -/
theorem trFind_byte (b : UInt8) (table : ℕ → Bool) (del nodel : Option (List UInt32)) :
    trFind b.toUInt32 table del nodel = table b.toNat := by
  have hlt : b.toUInt32 < 256 := by
    rw [UInt32.lt_iff_toNat_lt, UInt8.toNat_toUInt32]
    exact b.toNat_lt
  unfold trFind
  rw [if_pos hlt, UInt8.toNat_toUInt32]

/-- Counting `c` first, or counting it among the rest. -/
theorem map_countP_cons {α : Type} (p : α → Bool) (a : α) (i : ℕ) (x : Except String (List α)) :
    (fun cs => (if p a then i + 1 else i) + cs.countP p) <$> x =
      (fun cs => i + cs.countP p) <$> ((a :: ·) <$> x) := by
  rw [Functor.map_map]
  congr 1
  funext cs
  rw [List.countP_cons]
  split_ifs <;> omega

/-- **The loop counts the characters `tr_find` accepts.** -/
theorem trCount_eq (enc : Encoding) (tabs : TrTables) (s : List UInt8) (i : ℕ) :
    trCount enc tabs s i =
      (fun cs => i + cs.countP (trFind · tabs.stable tabs.del tabs.nodel)) <$> countChars enc s := by
  fun_induction trCount enc tabs s i with
  | case1 i =>
    rw [countChars]
    rfl
  | case2 i b rest hasc ih =>
    simp only [dite_eq_ite] at ih
    rw [countChars, if_pos hasc, ih, ← trFind_byte b tabs.stable tabs.del tabs.nodel]
    exact map_countP_cons (trFind · tabs.stable tabs.del tabs.nodel) _ i _
  | case3 i b rest hasc e h =>
    rw [countChars_of_error hasc h]
    rfl
  | case4 i b rest hasc c clen h ih =>
    simp only [dite_eq_ite] at ih
    rw [countChars_of_ok hasc h, ih]
    exact map_countP_cons (trFind · tabs.stable tabs.del tabs.nodel) c i _


/-! ## Counting the intersection -/

/-- `tr_setup_table` raises only what `trnext` raises. -/
theorem trSetupTable_ok {enc : Encoding} {str : List UInt8} (first : Bool) (tabs : TrTables)
    {cs : List UInt32} (h : trChars enc ⟨false, 0, 0, (trParse enc str).2⟩ = .ok cs) :
    ∃ tabs', trSetupTable enc str first tabs = .ok tabs' := by
  unfold trSetupTable
  rcases hp : trParse enc str with ⟨cflag, p⟩
  rw [hp] at h
  simp only [h]
  exact ⟨_, rfl⟩

theorem trSets_cons_inv {enc : Encoding} {s : List UInt8} {rest : List (List UInt8)}
    {sets : List (Bool × List UInt32)} (h : trSets enc (s :: rest) = .ok sets) :
    ∃ cs sets', trChars enc ⟨false, 0, 0, (trParse enc s).2⟩ = .ok cs ∧
      trSets enc rest = .ok sets' ∧ sets = ((trParse enc s).1, cs) :: sets' := by
  unfold trSets at h
  rw [List.mapM_cons] at h
  obtain ⟨x, hx, h⟩ := Except.bind_eq_ok h
  obtain ⟨cs, hcs, rfl⟩ := Except.map_eq_ok hx
  obtain ⟨sets', hsets', h⟩ := Except.bind_eq_ok h
  exact ⟨cs, sets', hcs, hsets', (Except.ok.inj h).symm⟩

theorem foldlM_trSetupTable_ok {enc : Encoding} (rest : List (List UInt8)) (tabs : TrTables)
    {sets : List (Bool × List UInt32)} (h : trSets enc rest = .ok sets) :
    ∃ tabs', rest.foldlM (fun tabs s => trSetupTable enc s false tabs) tabs = .ok tabs' := by
  induction rest generalizing tabs sets with
  | nil => exact ⟨tabs, rfl⟩
  | cons s rest ih =>
    obtain ⟨cs, sets', hcs, hrest, -⟩ := trSets_cons_inv h
    obtain ⟨tabs1, h1⟩ := trSetupTable_ok false tabs hcs
    obtain ⟨tabs', h'⟩ := ih tabs1 hrest
    refine ⟨tabs', ?_⟩
    rw [List.foldlM_cons, h1]
    exact h'

/-- **`rb_str_count` sets up its tables** whenever the specifications describe sets. -/
theorem rbStrCountTables_ok {enc : Encoding} {specs : List (List UInt8)}
    {sets : List (Bool × List UInt32)} (h : trSets enc specs = .ok sets) (hne : specs ≠ []) :
    ∃ tabs, rbStrCountTables enc specs = .ok tabs := by
  obtain ⟨s, rest, rfl⟩ := List.exists_cons_of_ne_nil hne
  obtain ⟨cs, sets', hcs, hrest, -⟩ := trSets_cons_inv h
  obtain ⟨tabs1, h1⟩ := trSetupTable_ok true ⟨fun _ => false, none, none⟩ hcs
  obtain ⟨tabs, h'⟩ := foldlM_trSetupTable_ok rest tabs1 hrest
  refine ⟨tabs, ?_⟩
  rw [rbStrCountTables, h1]
  exact h'

/-- The tables of `rb_str_count` and the invariant over the given sets. -/
theorem rbStrCountTables_inv_of_trSets {enc : Encoding} {specs : List (List UInt8)}
    {sets : List (Bool × List UInt32)} (h : trSets enc specs = .ok sets) (hne : specs ≠ []) :
    ∃ tabs, rbStrCountTables enc specs = .ok tabs ∧ TablesInv tabs sets := by
  obtain ⟨tabs, htabs⟩ := rbStrCountTables_ok h hne
  obtain ⟨sets', hsets', hinv⟩ := rbStrCountTables_inv htabs
  rw [h] at hsets'
  cases hsets'
  exact ⟨tabs, htabs, hinv⟩

/-- `rb_str_count` counts the characters that `tr_find` accepts. -/
theorem rbStrCount_of_trFind {enc : Encoding} {str : List UInt8} {specs : List (List UInt8)}
    {tabs : TrTables} {cs : List UInt32} {p : UInt32 → Bool}
    (htabs : rbStrCountTables enc specs = .ok tabs) (hcs : countChars enc str = .ok cs)
    (hfind : ∀ c, trFind c tabs.stable tabs.del tabs.nodel = p c) :
    rbStrCount enc str specs = .ok (cs.countP p) := by
  rw [rbStrCount, htabs]
  show trCount enc tabs str 0 = _
  rw [trCount_eq, hcs]
  simp only [hfind, zero_add]
  rfl

/-- **`String#count` counts the characters in every set** when the first set is not negated or
all are. -/
theorem rbStrCount_eq_countP {enc : Encoding} {str : List UInt8} {specs : List (List UInt8)}
    {sets : List (Bool × List UInt32)} {cs : List UInt32} (hsets : trSets enc specs = .ok sets)
    (hne : specs ≠ []) (hcs : countChars enc str = .ok cs)
    (hfirst : sets.head?.map (·.1) = some false ∨ sets.all (·.1) = true) :
    rbStrCount enc str specs = .ok (cs.countP fun c => sets.all (trSetMem · c)) := by
  obtain ⟨tabs, htabs, hinv⟩ := rbStrCountTables_inv_of_trSets hsets hne
  have hfind : ∀ c, trFind c tabs.stable tabs.del tabs.nodel = sets.all (trSetMem · c) :=
    fun c => trFind_wide hinv hfirst
  exact rbStrCount_of_trFind htabs hcs hfind

/-- After a negated first set and one that is not, `rb_str_count` counts no multibyte
character. -/
theorem rbStrCount_eq_countP_lt {enc : Encoding} {str : List UInt8} {specs : List (List UInt8)}
    {sets : List (Bool × List UInt32)} {cs : List UInt32} (hsets : trSets enc specs = .ok sets)
    (hne : specs ≠ []) (hcs : countChars enc str = .ok cs)
    (hfirst : sets.head?.map (·.1) = some true) (hany : sets.any (!·.1) = true) :
    rbStrCount enc str specs = .ok (cs.countP fun c => c < 256 && sets.all (trSetMem · c)) := by
  obtain ⟨tabs, htabs, hinv⟩ := rbStrCountTables_inv_of_trSets hsets hne
  have hfind : ∀ c, trFind c tabs.stable tabs.del tabs.nodel =
      (decide (c < 256) && sets.all (trSetMem · c)) := by
    intro c
    by_cases hc : c < 256
    · rw [trFind_of_lt hinv hc, decide_eq_true hc, Bool.true_and]
    · rw [trFind_wide_of_negated_first hinv hfirst hany (UInt32.not_lt.mp hc),
        decide_eq_false hc, Bool.false_and]
  exact rbStrCount_of_trFind htabs hcs hfind


/-- `"α".count("^a", "α")`: `α` is in both sets, and `rb_str_count` counts `0`. -/
theorem count_misses_wide_after_negated :
    rbStrCount utf8 [0xce, 0xb1] [[0x5e, 0x61], [0xce, 0xb1]] = .ok 0 ∧
      countChars utf8 [0xce, 0xb1] = .ok [945] ∧
      trSets utf8 [[0x5e, 0x61], [0xce, 0xb1]] = .ok [(true, [0x61]), (false, [945])] ∧
      [945].countP (fun c => [(true, [0x61]), (false, [945])].all (trSetMem · c)) = 1 := by
  -- `^a`: the set of all characters but `a`
  have hneg : trChars utf8 ⟨false, 0, 0, (trParse utf8 [0x5e, 0x61]).2⟩ = .ok [0x61] := by
    have hp : trParse utf8 [0x5e, 0x61] = (true, [0x61]) := rfl
    rw [hp]
    exact trChars_of_single rfl (by decide) rfl
  -- `α`, the code point 945 in two bytes
  have hpos : trChars utf8 ⟨false, 0, 0, (trParse utf8 [0xce, 0xb1]).2⟩ = .ok [945] := by
    have hp : trParse utf8 [0xce, 0xb1] = (false, [0xce, 0xb1]) := rfl
    rw [hp]
    exact trChars_of_single rfl (by decide) rfl
  have hsets : trSets utf8 [[0x5e, 0x61], [0xce, 0xb1]] = .ok [(true, [0x61]), (false, [945])] :=
    trSets_cons hneg (trSets_cons hpos rfl)
  have hcp : utf8.codepointLen [0xce, 0xb1] = .ok (945, 2) := rfl
  have hchars : countChars utf8 [0xce, 0xb1] = .ok [945] := by
    rw [countChars_of_ok (by decide) hcp]
    show (945 :: ·) <$> countChars utf8 [] = _
    rw [countChars]
    rfl
  refine ⟨?_, hchars, hsets, by decide⟩
  rw [rbStrCount_eq_countP_lt hsets (List.cons_ne_nil _ _) hchars rfl rfl]
  rfl

end CRuby.Str
