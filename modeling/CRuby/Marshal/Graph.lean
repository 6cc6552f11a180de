import CRuby.Marshal.Integer
import CRuby.Ary.Splice

/-!
# Dumping and loading an object graph (marshal.c)

`Marshal.dump` writes each object once. `w_object` enters every heap object it writes in the
link table `arg->data`, numbered in the order it meets them, and an object it meets again is
written as `'@'` and that number. Symbols have a table of their own, `arg->symbols`, and a
Symbol met again is written as `';'` and its number. `r_object0` numbers the objects it makes
in the same order (`r_entry`), and the Symbols it reads (`r_symreal`), so that a link read back
names the object made for the one it stood for.

The model has the objects of `nil`, `true`, `false`, Fixnums, Symbols, Bignums, Strings and
Arrays. A value (`Val`) is an immediate or a reference into a heap (`List Obj`); an Array holds
values, so a heap may share objects and hold cycles. A String or a Symbol is in ASCII-8BIT,
US-ASCII or UTF-8: `encoding_name` gives no name, `Qfalse` or `Qtrue` for them, and the name
is written as the instance variable `E`. The loader reads a String source, makes its objects
in a heap of its own, and stops (`LoadError.otherType`, `LoadError.otherIvar`) where a dump has
something that the model leaves out.

Each side recurses; the model bounds the recursion by a fuel, which `marshalDump` and
`marshalLoad` give in an amount that the recursion never uses up.
-/

namespace CRuby.Marshal.Graph

open CRuby.Num CRuby.Ary

/-- `TYPE_NIL` -/
def typeNil : UInt8 := '0'.toUInt8

/-- `TYPE_TRUE` -/
def typeTrue : UInt8 := 'T'.toUInt8

/-- `TYPE_FALSE` -/
def typeFalse : UInt8 := 'F'.toUInt8

/-- `TYPE_SYMBOL` -/
def typeSymbol : UInt8 := ':'.toUInt8

/-- `TYPE_SYMLINK` -/
def typeSymlink : UInt8 := ';'.toUInt8

/-- `TYPE_IVAR` -/
def typeIvar : UInt8 := 'I'.toUInt8

/-- `TYPE_LINK` -/
def typeLink : UInt8 := '@'.toUInt8

/-- `TYPE_STRING` -/
def typeString : UInt8 := '"'.toUInt8

/-- `TYPE_ARRAY` -/
def typeArray : UInt8 := '['.toUInt8

/-! ## Objects -/

/-- The encodings of the model. All three agree with ASCII on the bytes below `0x80`. -/
inductive StrEnc where
  | ascii8bit
  | usascii
  | utf8
  deriving DecidableEq, Repr

/-- `ENC_CODERANGE_7BIT` in these encodings, also `rb_enc_str_asciionly_p`: every byte is
below `0x80`. -/
def isAsciiOnly (bs : List UInt8) : Bool := bs.all (· < 0x80)

/-- `encoding_name(obj, arg)`: `Qnil` (`none`) for ASCII-8BIT, whose index is `0`; `Qfalse`
(`some false`) for US-ASCII and `Qtrue` (`some true`) for UTF-8. -/
def encodingName : StrEnc → Option Bool
  | .ascii8bit => none
  | .usascii => some false
  | .utf8 => some true

/-- A Symbol: its name and the encoding of the name. `rb_str_intern` makes the Symbol of a name
of ASCII bytes a US-ASCII one. -/
structure RSym where
  name : List UInt8
  enc : StrEnc
  ascii : isAsciiOnly name = true → enc = .usascii
  deriving DecidableEq, Repr

/-- `ID2SYM(rb_intern("E"))` -/
def symE : RSym := ⟨['E'.toUInt8], .usascii, fun _ => rfl⟩

/-- `rb_str_intern(str)` on the name and encoding of a String. -/
def rbStrIntern (name : List UInt8) (enc : StrEnc) : RSym :=
  if h : isAsciiOnly name = true then ⟨name, .usascii, fun _ => rfl⟩
  else ⟨name, enc, fun h' => absurd h' h⟩

/-- A `VALUE`: an immediate, or a reference to the object numbered `id` of a heap. -/
inductive Val where
  | qnil
  | qtrue
  | qfalse
  | fixnum (v : Value)
  | sym (s : RSym)
  | ref (id : ℕ)
  deriving DecidableEq, Repr

/-- The heap objects of the model. -/
inductive Obj where
  /-- a Bignum that holds `n` -/
  | bignum (n : ℤ)
  /-- a String of exactly the class `String` and no instance variable but its encoding -/
  | str (bytes : List UInt8) (enc : StrEnc)
  /-- an Array of exactly the class `Array` and no instance variable -/
  | ary (elems : List Val)
  deriving DecidableEq, Repr, Inhabited

/-- `encoding_name(obj, arg)` of a heap object. A Bignum's or an Array's flags keep nothing in
the bits of an encoding index, so `rb_enc_get_index` reads `0` there and the name is `Qnil`. -/
def Obj.encodingName : Obj → Option Bool
  | .str _ enc => Graph.encodingName enc
  | _ => none

/-- The object an object points to. -/
def Val.refs : Val → List ℕ
  | .ref id => [id]
  | _ => []

/-- The objects an object points to. -/
def Obj.refs : Obj → List ℕ
  | .ary xs => xs.flatMap Val.refs
  | _ => []

/-- A value with its references renumbered by `φ`. -/
def Val.mapRefs (φ : ℕ → ℕ) : Val → Val
  | .ref id => .ref (φ id)
  | v => v

/-- An object with its references renumbered by `φ`. -/
def Obj.mapRefs (φ : ℕ → ℕ) : Obj → Obj
  | .ary xs => .ary (xs.map (Val.mapRefs φ))
  | o => o

/-- The form Ruby keeps its values in: a Fixnum is a tagged word. -/
def Val.Canonical : Val → Prop
  | .fixnum v => fixnumP v = true
  | _ => True

/-- The form Ruby keeps its objects in: a Bignum holds no Fixnum's value, and an Array's
elements are canonical. -/
def Obj.Canonical : Obj → Prop
  | .bignum n => (RInteger.bignum n).Canonical
  | .str _ _ => True
  | .ary xs => ∀ x ∈ xs, x.Canonical

/-! ## Dumping -/

/-- `struct dump_arg`, as far as the modelled paths use it. -/
structure DumpArg where
  /-- `arg->data`: the heap objects entered so far, in order; `none` for the Bignum that
  `rb_int2big` makes for a Fixnum, which nothing else points to -/
  data : List (Option ℕ)
  /-- `arg->symbols`: the Symbols written so far, in order -/
  symbols : List RSym
  deriving DecidableEq, Repr

/-- Why a dump stops. -/
inductive DumpError where
  /-- an exception of marshal.c -/
  | raise (e : MarshalError)
  /-- the bound on the recursion, which `marshalDump` gives enough of -/
  | outOfFuel
  /-- a reference to no object of the heap, which the C code is never handed -/
  | dangling (id : ℕ)
  deriving DecidableEq, Repr

/-- `w_bytes(s, n, arg)`: the length, then the bytes. -/
def wBytes (bs : List UInt8) : Except MarshalError (List UInt8) := do
  let len ← wLong (BitVec.ofNat 64 bs.length)
  pure (len ++ bs)

/-- `w_encoding(encname, arg)` for `Qfalse` or `Qtrue` (`e`): `:E`, then the flag, which
`limit` counts once less. `wSym` is `w_symbol` and `wObj` is `w_object`. -/
def wEncoding (wObj : Val → ℤ → DumpArg → Except DumpError (List UInt8 × DumpArg))
    (wSym : RSym → DumpArg → Except DumpError (List UInt8 × DumpArg))
    (limit : ℤ) (e : Bool) (arg : DumpArg) : Except DumpError (List UInt8 × DumpArg) := do
  let limit := if 0 ≤ limit then limit + 1 else limit
  let (esym, arg) ← wSym symE arg
  let (flag, arg) ← wObj (if e then .qtrue else .qfalse) limit arg
  pure (esym ++ flag, arg)

/-- `w_symbol(sym, arg)`, with `fuel` levels for the call on `:E`; `wObj` is `w_object`. A
Symbol written before is a link. Otherwise the name is written, the Symbol is entered, and a
name that is not all ASCII gets its encoding, written with a limit of `1`. -/
def wSymbol (wObj : Val → ℤ → DumpArg → Except DumpError (List UInt8 × DumpArg)) :
    ℕ → RSym → DumpArg → Except DumpError (List UInt8 × DumpArg)
  | 0, _, _ => .error .outOfFuel
  | fuel + 1, sym, arg =>
    match arg.symbols.idxOf? sym with
    | some num => do
      let bs ← (wLong (BitVec.ofNat 64 num)).mapError .raise
      pure (typeSymlink :: bs, arg)
    | none => do
      -- `encoding_name`, dropped for a name whose coderange is 7-bit
      let encname := if isAsciiOnly sym.name then none else encodingName sym.enc
      let name ← (wBytes sym.name).mapError .raise
      let arg := { arg with symbols := arg.symbols ++ [sym] }
      match encname with
      | none => pure (typeSymbol :: name, arg)
      | some e => do
        let one ← (wLong 1).mapError .raise
        let (enc, arg) ← wEncoding wObj (wSymbol wObj fuel) 1 e arg
        pure (typeIvar :: typeSymbol :: name ++ one ++ enc, arg)

/-- The loop of the `T_ARRAY` case of `w_object`: each element in turn. -/
def wElems (wObj : Val → DumpArg → Except DumpError (List UInt8 × DumpArg)) :
    List Val → DumpArg → Except DumpError (List UInt8 × DumpArg)
  | [], arg => pure ([], arg)
  | x :: xs, arg => do
    let (b, arg) ← wObj x arg
    let (bs, arg) ← wElems wObj xs arg
    pure (b ++ bs, arg)

/-- `w_ivar(1, Qundef, encname, arg)` for an object whose one instance variable is its
encoding `e`: the count, then `w_encoding`. -/
def wIvar (wObj : Val → ℤ → DumpArg → Except DumpError (List UInt8 × DumpArg))
    (wSym : RSym → DumpArg → Except DumpError (List UInt8 × DumpArg))
    (limit : ℤ) (e : Bool) (arg : DumpArg) : Except DumpError (List UInt8 × DumpArg) := do
  let one ← (wLong 1).mapError .raise
  let (enc, arg) ← wEncoding wObj wSym limit e arg
  pure (one ++ enc, arg)

/-- The `switch (BUILTIN_TYPE(obj))` of `w_object` on a heap object. `wObj` writes an element
of an Array; `limit0` is the limit `w_object` was called with. -/
def wObjectBody (wObj : Val → DumpArg → Except DumpError (List UInt8 × DumpArg)) (limit0 : ℤ) :
    Obj → DumpArg → Except DumpError (List UInt8 × DumpArg)
  | .bignum n, arg => do
    -- `wObjectBignum` repeats the limit test of `w_object`, which has passed
    let bs ← (wObjectBignum limit0 n).mapError .raise
    pure (bs, arg)
  | .str bs _, arg => do
    let b ← (wBytes bs).mapError .raise
    pure (typeString :: b, arg)
  | .ary xs, arg => do
    let len ← (wLong (BitVec.ofNat 64 xs.length)).mapError .raise
    let (es, arg) ← wElems wObj xs arg
    pure (typeArray :: len ++ es, arg)

/-- `w_object(obj, arg, limit)` on the heap `heap`, with `fuel` levels of recursion. -/
def wObject (heap : List Obj) : ℕ → Val → ℤ → DumpArg → Except DumpError (List UInt8 × DumpArg)
  | 0, _, _, _ => .error .outOfFuel
  | fuel + 1, obj, limit0, arg => do
    let limit ← (wObjectLimit limit0).mapError .raise
    match obj with
    | .qnil => pure ([typeNil], arg)
    | .qtrue => pure ([typeTrue], arg)
    | .qfalse => pure ([typeFalse], arg)
    | .fixnum v =>
      if v.sshiftRight 31 = 0 ∨ v.sshiftRight 31 = -1 then do
        let bs ← (wLong (fix2long v)).mapError .raise
        pure (typeFixnum :: bs, arg)
      else do
        -- `w_object(rb_int2big(FIX2LONG(obj)), arg, limit)`: a new Bignum, not in the link
        -- table, entered there, with no instance variables
        let bs ← (wObjectBignum limit (rbInt2big (fix2long v)).val).mapError .raise
        pure (bs, { arg with data := arg.data ++ [none] })
    | .sym s => wSymbol (wObject heap fuel) fuel s arg
    | .ref id =>
      -- `st_lookup(arg->data, obj, &num)`; only heap objects are ever entered
      match arg.data.idxOf? (some id) with
      | some num => do
        let bs ← (wLong (BitVec.ofNat 64 num)).mapError .raise
        pure (typeLink :: bs, arg)
      | none =>
        match heap[id]? with
        | none => .error (.dangling id)
        | some o => do
          let arg := { arg with data := arg.data ++ [some id] }
          let (body, arg) ← wObjectBody (fun x => wObject heap fuel x limit) limit0 o arg
          -- `has_ivars`: the encoding is the one instance variable
          match o.encodingName with
          | none => pure (body, arg)
          | some e => do
            let (iv, arg) ← wIvar (wObject heap fuel) (wSymbol (wObject heap fuel) fuel) limit e arg
            pure (typeIvar :: body ++ iv, arg)

/-- `Marshal.dump(obj, limit)` of the value `obj` of `heap` into a String. The fuel exceeds the
depth of any recursion on a heap of this size. -/
def marshalDump (heap : List Obj) (limit : ℤ) (obj : Val) : Except DumpError (List UInt8) := do
  let (bs, _) ← wObject heap (heap.length + 3) obj limit ⟨[], []⟩
  pure (marshalMajor :: marshalMinor :: bs)

/-- `Marshal.dump(["ab"] * 2)`: the second element is a link to the String, object `1`. -/
example :
    marshalDump [.ary [.ref 1, .ref 1], .str [97, 98] .utf8] (-1) (.ref 0) =
      .ok [4, 8, 91, 7, 73, 34, 7, 97, 98, 6, 58, 6, 69, 84, 64, 6] := by
  decide

/-! ## Loading -/

/-- `struct load_arg`, as far as the modelled paths use it, and the objects made so far. -/
structure LoadArg where
  /-- `arg->symbols`: the name and encoding of each Symbol read, in order -/
  symbols : List (List UInt8 × StrEnc)
  /-- `arg->data`: the value of each object entered, in order -/
  data : List Val
  /-- the objects the load has made, numbered in the order it made them -/
  heap : List Obj
  deriving DecidableEq, Repr

/-- Why a load stops. -/
inductive LoadError where
  /-- an exception of the integer model's readers -/
  | raise (e : MarshalError)
  /-- `dump format error (unlinked)` -/
  | unlinked
  /-- `bad symbol` -/
  | badSymbol
  /-- `dump format error for symbol(0x%x)` -/
  | symbolFormat (type : UInt8)
  /-- `dump format error (symlink with encoding)` -/
  | symlinkWithEncoding
  /-- `ary_new`: a negative length -/
  | negativeArraySize
  /-- `ary_new`: a length above `ARY_MAX_SIZE` -/
  | arraySizeTooBig
  /-- a type byte of an object that the model does not read -/
  | otherType (type : UInt8)
  /-- an instance variable that is not the encoding of a String -/
  | otherIvar
  /-- the bound on the recursion, which `marshalLoad` gives enough of -/
  | outOfFuel
  deriving DecidableEq, Repr

/-- The message of each exception, `none` where the model stops short of the code. -/
def LoadError.message : LoadError → Option String
  | .raise e => some e.message
  | .unlinked => some "dump format error (unlinked)"
  | .badSymbol => some "bad symbol"
  | .symbolFormat type => some ("dump format error for symbol(0x" ++ hexString type.toNat ++ ")")
  | .symlinkWithEncoding => some "dump format error (symlink with encoding)"
  | .negativeArraySize => some "negative array size (or size too big)"
  | .arraySizeTooBig => some "array size too big"
  | .otherType _ | .otherIvar | .outOfFuel => none

/-- `st_lookup` of a `long` key in a table numbered from `0`: a negative key, cast to
`st_data_t`, is none of its keys. -/
def lookupIndex {α : Type} (l : List α) (num : Long) : Option α :=
  if 0 ≤ num.toInt then l[num.toNat]? else none

/-- `r_entry(v, arg)`: `v` is entered in `arg->data`. -/
def LoadArg.entry (arg : LoadArg) (v : Val) : LoadArg := { arg with data := arg.data ++ [v] }

/-- A new object, numbered after those made before. -/
def LoadArg.alloc (arg : LoadArg) (o : Obj) : Val × LoadArg :=
  (.ref arg.heap.length, { arg with heap := arg.heap ++ [o] })

/-- `rb_ary_push(v, x)` on the Array numbered `id`. -/
def LoadArg.push (arg : LoadArg) (id : ℕ) (x : Val) : LoadArg :=
  { arg with heap := arg.heap.modify id fun o => match o with
      | .ary xs => .ary (xs ++ [x])
      | o => o }

/-- `rb_enc_associate_index(obj, idx)` of `r_ivar`, on a String of the heap. -/
def LoadArg.associate (arg : LoadArg) (obj : Val) (enc : StrEnc) : Except LoadError LoadArg :=
  match obj with
  | .ref id =>
    match arg.heap[id]? with
    | some (.str bs _) => .ok { arg with heap := arg.heap.set id (.str bs enc) }
    | _ => .error .otherIvar
  | _ => .error .otherIvar

/-- `sym2encidx(sym, val)`: the encoding that the instance variable `sym` set to `val` names,
`none` for `-1`. The name `encoding`, with the name of another encoding as its value, is left
out. -/
def sym2encidx (sym : List UInt8 × StrEnc) (val : Val) : Except LoadError (Option StrEnc) :=
  if sym.2 ≠ .usascii then .ok none
  else if sym.1 = "encoding".toList.map Char.toUInt8 then .error .otherIvar
  else if sym.1 = ['E'.toUInt8] then
    match val with
    | .qfalse => .ok (some .usascii)
    | .qtrue => .ok (some .utf8)
    | _ => .ok none
  else .ok none

/-- `r_symlink(arg)`. -/
def rSymlink (s : List UInt8) (arg : LoadArg) :
    Except LoadError ((List UInt8 × StrEnc) × List UInt8) := do
  let (num, s) ← (rLong s).mapError .raise
  match lookupIndex arg.symbols num with
  | some sym => pure (sym, s)
  | none => throw .badSymbol

/-- A reader of `r_symbol`'s kind: the name and encoding of a Symbol. -/
abbrev SymReader := List UInt8 → LoadArg → Except LoadError ((List UInt8 × StrEnc) × List UInt8 × LoadArg)

/-- A reader of `r_object`'s kind: a value, and `*ivp` afterwards. -/
abbrev ObjReader := List UInt8 → LoadArg → Except LoadError (Val × Bool × List UInt8 × LoadArg)

/-- The `do .. while (--len > 0)` loop of `r_ivar` with `k` turns left: a Symbol (`rSym`), a
value (`rObj`), and the encoding that they name set on `obj`. -/
def rIvarLoop (rSym : SymReader) (rObj : ObjReader) (obj : Val) :
    ℕ → List UInt8 → LoadArg → Except LoadError (List UInt8 × LoadArg)
  | 0, s, arg => pure (s, arg)
  | k + 1, s, arg => do
    let (sym, s, arg) ← rSym s arg
    let (val, _, s, arg) ← rObj s arg
    match ← sym2encidx sym val with
    | some enc => do
      let arg ← arg.associate obj enc
      rIvarLoop rSym rObj obj k s arg
    -- `rb_ivar_set(obj, rb_intern_str(sym), val)`
    | none => throw .otherIvar

/-- `r_ivar(obj, NULL, arg)`: the count, then that many instance variables of `obj`. -/
def rIvar (rSym : SymReader) (rObj : ObjReader) (obj : Val) (s : List UInt8) (arg : LoadArg) :
    Except LoadError (List UInt8 × LoadArg) := do
  let (len, s) ← (rLong s).mapError .raise
  rIvarLoop rSym rObj obj len.toInt.toNat s arg

/-- The `while (num-- > 0)` loop of `r_symreal` with `k` turns left: the encoding `idx` named
by the last instance variable read. -/
def rSymrealLoop (rSym : SymReader) (rObj : ObjReader) :
    ℕ → Option StrEnc → List UInt8 → LoadArg →
      Except LoadError (Option StrEnc × List UInt8 × LoadArg)
  | 0, idx, s, arg => pure (idx, s, arg)
  | k + 1, _, s, arg => do
    let (sym, s, arg) ← rSym s arg
    let (val, _, s, arg) ← rObj s arg
    let idx ← sym2encidx sym val
    rSymrealLoop rSym rObj k idx s arg

/-- The loop of the `TYPE_ARRAY` case with `k` elements left: `rb_ary_push(v, r_object(arg))`
onto the Array numbered `id`. -/
def rElems (rObj : ObjReader) (id : ℕ) :
    ℕ → List UInt8 → LoadArg → Except LoadError (List UInt8 × LoadArg)
  | 0, s, arg => pure (s, arg)
  | k + 1, s, arg => do
    let (x, _, s, arg) ← rObj s arg
    rElems rObj id k s (arg.push id x)

/-- `r_symreal(arg, ivar)`: the name, entered in `arg->symbols`, and after `TYPE_IVAR` its
instance variables, read by `rSym` and `rObj`; the encoding they name is set on the name,
which the table holds. -/
def rSymreal (rSym : SymReader) (rObj : ObjReader) (ivar : Bool) (s : List UInt8)
    (arg : LoadArg) : Except LoadError ((List UInt8 × StrEnc) × List UInt8 × LoadArg) := do
  let (len, s) ← (rLong s).mapError .raise
  let (name, s) ← (rBytes0 len s).mapError .raise
  -- `r_bytes` makes an ASCII-8BIT String; `rb_enc_str_asciionly_p` makes it US-ASCII
  let enc := if isAsciiOnly name then StrEnc.usascii else .ascii8bit
  let n := arg.symbols.length
  let arg := { arg with symbols := arg.symbols ++ [(name, enc)] }
  if ivar then do
    let (num, s) ← (rLong s).mapError .raise
    let (idx, s, arg) ← rSymrealLoop rSym rObj num.toInt.toNat none s arg
    match idx with
    | some e => pure ((name, e), s, { arg with symbols := arg.symbols.set n (name, e) })
    | none => pure ((name, enc), s, arg)
  else pure ((name, enc), s, arg)

/-- The `switch` of `r_symbol(arg)` on the byte `type`, `ivar` being set by a `TYPE_IVAR` read
before. `rSym` is `r_symbol` and `rObj` is `r_object`, one level down. -/
def rSymbolSwitch (rSym : Bool → SymReader) (rObj : ObjReader) (type : UInt8) (ivar : Bool)
    (s : List UInt8) (arg : LoadArg) :
    Except LoadError ((List UInt8 × StrEnc) × List UInt8 × LoadArg) :=
  if type = typeIvar then rSym true s arg
  else if type = typeSymbol then rSymreal (rSym false) rObj ivar s arg
  else if type = typeSymlink then
    if ivar then throw .symlinkWithEncoding
    else do
      let (sym, s) ← rSymlink s arg
      pure (sym, s, arg)
  else throw (.symbolFormat type)

/-- The `switch` of `r_object0(arg, ivp, extmod)` on the type byte `type`. `ivp` is `*ivp`
(`false` for a null `ivp`), and the flag returned is `*ivp` afterwards. `rObj` is `r_object0`
and `rSym` is `r_symbol`, one level down. -/
def rObjectSwitch (rObj : Bool → ObjReader) (rSym : Bool → SymReader) (type : UInt8) (ivp : Bool)
    (s : List UInt8) (arg : LoadArg) : Except LoadError (Val × Bool × List UInt8 × LoadArg) :=
  if type = typeLink then do
    let (id, s) ← (rLong s).mapError .raise
    match lookupIndex arg.data id with
    | some v => pure (v, ivp, s, arg)
    | none => throw .unlinked
  else if type = typeIvar then do
    let (v, ivar, s, arg) ← rObj true s arg
    if ivar then do
      let (s, arg) ← rIvar (rSym false) (rObj false) v s arg
      pure (v, ivp, s, arg)
    else pure (v, ivp, s, arg)
  else if type = typeNil then pure (.qnil, ivp, s, arg)
  else if type = typeTrue then pure (.qtrue, ivp, s, arg)
  else if type = typeFalse then pure (.qfalse, ivp, s, arg)
  else if type = typeFixnum then do
    let (i, s) ← (rLong s).mapError .raise
    pure (.fixnum (long2fix i), ivp, s, arg)
  else if type = typeBignum then do
    let (r, s) ← (rBignum s).mapError .raise
    -- `rb_integer_unpack` makes a Fixnum or a new Bignum
    let (v, arg) := match r with
      | .fixnum w => (Val.fixnum w, arg)
      | .bignum n => arg.alloc (.bignum n)
    pure (v, ivp, s, arg.entry v)
  else if type = typeString then do
    let (len, s) ← (rLong s).mapError .raise
    let (bytes, s) ← (rBytes0 len s).mapError .raise
    let (v, arg) := arg.alloc (.str bytes .ascii8bit)
    pure (v, ivp, s, arg.entry v)
  else if type = typeArray then do
    let (len, s) ← (rLong s).mapError .raise
    if len.toInt < 0 then throw .negativeArraySize
    else if aryMaxSize < len.toInt then throw .arraySizeTooBig
    else do
      let id := arg.heap.length
      let (v, arg) := arg.alloc (.ary [])
      let (s, arg) ← rElems (rObj false) id len.toNat s (arg.entry v)
      pure (v, ivp, s, arg)
  else if type = typeSymbol then do
    let (str, s, arg) ← rSymreal (rSym false) (rObj false) ivp s arg
    pure (.sym (rbStrIntern str.1 str.2), false, s, arg)
  else if type = typeSymlink then do
    let (str, s) ← rSymlink s arg
    pure (.sym (rbStrIntern str.1 str.2), ivp, s, arg)
  else if type ∈ objectTypes then throw (.otherType type)
  else throw (.raise (.dumpFormatError type))

mutual

/-- `r_object0(arg, ivp, extmod)`, with `fuel` levels of recursion: the type byte, then its
case. -/
def rObject0 : ℕ → Bool → ObjReader
  | 0, _ => fun _ _ => .error .outOfFuel
  | fuel + 1, ivp => fun s arg => do
    let (type, s) ← (rByte s).mapError .raise
    rObjectSwitch (rObject0 fuel) (rSymbol fuel) type ivp s arg

/-- `r_symbol(arg)`, with `fuel` levels of recursion: a byte, then its case. -/
def rSymbol : ℕ → Bool → SymReader
  | 0, _ => fun _ _ => .error .outOfFuel
  | fuel + 1, ivar => fun s arg => do
    let (type, s) ← (rByte s).mapError .raise
    rSymbolSwitch (rSymbol fuel) (rObject0 fuel false) type ivar s arg

end

/-- `Marshal.load(source)` from a String: the version check, then the object and the objects
made for it. Each reader reads a byte, so a fuel of one more than the bytes is never used up. -/
def marshalLoad (s : List UInt8) : Except LoadError (Val × List Obj) := do
  let (major, s) ← (rByte s).mapError .raise
  let (minor, s) ← (rByte s).mapError .raise
  if major ≠ marshalMajor ∨ minor > marshalMinor then throw (.raise (.incompatibleFormat major minor))
  else do
    let (v, _, _, arg) ← rObject0 (s.length + 1) false s ⟨[], [], []⟩
    pure (v, arg.heap)

/-- The dump of `["ab"] * 2` loads as one String shared by an Array. -/
example :
    marshalLoad [4, 8, 91, 7, 73, 34, 7, 97, 98, 6, 58, 6, 69, 84, 64, 6] =
      .ok (.ref 0, [.ary [.ref 1, .ref 1], .str [97, 98] .utf8]) := by
  decide

end CRuby.Marshal.Graph
