import Groonga.Load.Values
import Mathlib

/-!
# Records of a load

A load gives a record as an array, whose values belong to the columns of a header, or as an
object. Either way the loader first looks for the identifier, `_id` or `_key`, then finds or
adds the record, and then sets the other columns one after the other.

The tables, casts and expressions of the database are a parameter, `Db`. It is given the
entries of a value and changes the context: the database and the current error.
-/

namespace Groonga.Load

variable {F σ C : Type}

/-! ## The database -/

/-- The errors of the loader, and those of the database. -/
inductive Error where
  | columnNameMustBeString
  | duplicatedIdColumns
  | duplicatedIdentifierColumns (first second : List UInt8)
  | noKeyDoesNotAcceptKey
  | nonexistentColumn (name : List UInt8)
  | noIdentifier
  | failedToCastId
  | unexpectedNumberOfValues (expected actual : ℕ)
  | database (code : ℕ)
deriving DecidableEq, Repr

/-- `grn_ctx`: the database and `ctx->rc`. -/
structure Ctx (σ : Type) where
  db : σ
  rc : Option Error

/-- The table of a load and what the loader calls for it. -/
structure Db (F σ C : Type) where
  /-- `GRN_TABLE_NO_KEY` -/
  noKey : Bool
  /-- `grn_obj_column` -/
  column : List UInt8 → Option C
  /-- `grn_obj_cast` to `UInt32` -/
  cast : List (Entry F) → Option ℕ
  /-- `grn_table_at` -/
  tableAt : ℕ → Ctx σ → ℕ × Ctx σ
  /-- `grn_table_add` without a key -/
  tableAdd : Ctx σ → ℕ × Ctx σ
  /-- `grn_table_add_by_key`: the id, and whether it is new -/
  tableAddByKey : List (Entry F) → Ctx σ → (ℕ × Bool) × Ctx σ
  /-- the expression of `--ifexists` -/
  ifExists : Option (ℕ → Ctx σ → Bool × Ctx σ)
  /-- the expression of `--each` -/
  each : Option (ℕ → Ctx σ → Ctx σ)
  /-- `grn_loader_bracket_set_value` -/
  bracketSetValue : C → ℕ → List (Entry F) → Ctx σ → Ctx σ
  /-- `grn_loader_brace_set_value` -/
  braceSetValue : C → ℕ → List (Entry F) → Ctx σ → Ctx σ
  /-- `grn_obj_set_value` -/
  setValue : C → ℕ → List (Entry F) → Ctx σ → Ctx σ

/-! ## The loader -/

/-- `GRN_LOADER_COLUMNS_UNSET`, `GRN_LOADER_COLUMNS_SET` and `GRN_LOADER_COLUMNS_BROKEN`. -/
inductive ColumnsStatus where
  | unset
  | set
  | broken
deriving DecidableEq, Repr

/-- `grn_loader`, the part that records need. An offset of -1 is `none`. -/
structure Loader (σ C : Type) where
  ctx : Ctx σ
  columns : List (List UInt8 × C)
  columnsStatus : ColumnsStatus
  idOffset : Option ℕ
  keyOffset : Option ℕ
  lockTable : Bool
  error : Option Error
  nRecords : ℕ
  nRecordErrors : ℕ
  nColumnErrors : ℕ
  ids : List ℕ
  returnCodes : List (Option Error)

/-- `GRN_COLUMN_NAME_ID`. -/
def nameId : List UInt8 := [0x5f, 0x69, 0x64]

/-- `GRN_COLUMN_NAME_KEY`. -/
def nameKey : List UInt8 := [0x5f, 0x6b, 0x65, 0x79]

/-- `ERR`. -/
def Ctx.err (ctx : Ctx σ) (e : Error) : Ctx σ := { ctx with rc := some e }

/-- `ERRCLR`. -/
def Ctx.clear (ctx : Ctx σ) : Ctx σ := { ctx with rc := none }

/-- `grn_loader_save_error`. -/
def Loader.saveError (l : Loader σ C) : Loader σ C := { l with error := l.ctx.rc }

/-- `grn_loader_on_record_added`. -/
def Loader.onRecordAdded (l : Loader σ C) (id : ℕ) : Loader σ C :=
  let l := if id = 0 then { l.saveError with nRecordErrors := l.nRecordErrors + 1 }
    else { l with nRecords := l.nRecords + 1 }
  { l with ids := l.ids ++ [id], returnCodes := l.returnCodes ++ [l.ctx.rc], ctx := l.ctx.clear }

/-- `grn_loader_on_column_set`. -/
def Loader.onColumnSet (l : Loader σ C) : Loader σ C :=
  if l.ctx.rc = none then l
  else { l.saveError with nColumnErrors := l.nColumnErrors + 1, ctx := l.ctx.clear }

/-! ## One record -/

/-- `grn_loader_parse_id_value`: the id, 0 if it failed. -/
def parseIdValue (db : Db F σ C) (value : List (Entry F)) (ctx : Ctx σ) : ℕ × Ctx σ :=
  match db.cast (valueAt value) with
  | some id => (id, ctx)
  | none => (0, ctx.err .failedToCastId)

/-- `grn_loader_add_record`. -/
def loaderAddRecord (db : Db F σ C) (id : ℕ) (key : Option (List (Entry F))) (ctx : Ctx σ) :
    ℕ × Ctx σ :=
  if id ≠ 0 then
    match db.tableAt id ctx with
    | (0, ctx) => if ctx.rc = none then db.tableAdd ctx else (id, ctx)
    | (_, ctx) => (id, ctx)
  else
    match key with
    | some key =>
      match db.tableAddByKey (valueAt key) ctx, db.ifExists with
      | ((0, _), ctx), _ => (0, ctx)
      | ((id, false), ctx), some ifExists =>
        match ifExists id ctx with
        | (true, ctx) => (id, ctx)
        | (false, ctx) => (0, ctx)
      | ((id, _), ctx), _ => (id, ctx)
    | none => db.tableAdd ctx

/-- One column of a record, from a pointer to the value. -/
def setColumn (db : Db F σ C) (id : ℕ) (column : C) (value : List (Entry F)) (l : Loader σ C) :
    Loader σ C :=
  let ctx :=
    match value with
    | .openBracket _ :: _ => db.bracketSetValue column id (valueAt value) l.ctx
    | .openBrace _ :: _ => db.braceSetValue column id (valueAt value) l.ctx
    | _ => db.setValue column id (valueAt value) l.ctx
  { l with ctx := ctx }.onColumnSet

/-- `grn_loader_apply_each`. -/
def applyEach (db : Db F σ C) (id : ℕ) (l : Loader σ C) : Loader σ C :=
  match db.each with
  | none => l
  | some each => { l with ctx := each id l.ctx }

/-- `grn_obj_is_text_family_bulk` with the text. -/
def textOf : List (Entry F) → Option (List UInt8)
  | .scalar (.text bytes) :: _ => some bytes
  | _ => none

/-! ## Objects -/

/-- The loop of `grn_loader_brace_set_values`. -/
def braceSetValuesLoop (db : Db F σ C) (id : ℕ) : ℕ → List (Entry F) → Loader σ C → Loader σ C
  | 0, _, l => l
  | _ + 1, [], l => l
  | fuel + 1, value, l =>
    let name := (textOf value).getD []
    let value := value.drop 1
    let l :=
      if name = nameId ∨ name = nameKey then l
      else
        match db.column name with
        | none => { l with ctx := l.ctx.err (.nonexistentColumn name) }.onColumnSet
        | some column => setColumn db id column value l
    braceSetValuesLoop db id fuel (valuesNext value) l

/-- `grn_loader_brace_set_values`. -/
def braceSetValues (db : Db F σ C) (id : ℕ) (braceValue : List (Entry F)) (l : Loader σ C) :
    Loader σ C :=
  braceSetValuesLoop db id (contents braceValue).length (contents braceValue) l

/-- The identifier of a record: the pointers to the values of `_id` and `_key`. -/
structure Identifier (F : Type) where
  id : Option (List (Entry F))
  key : Option (List (Entry F))

/-- There is an identifier already. -/
def Identifier.found (i : Identifier F) : Bool := i.id.isSome || i.key.isSome

/-- The name of the identifier that was found first. -/
def Identifier.name (i : Identifier F) : List UInt8 := if i.id.isSome then nameId else nameKey

/-- The scan of `grn_loader_brace_add_record_internal` for `_id` or `_key`. -/
def scanLoop (db : Db F σ C) : ℕ → List (Entry F) → Identifier F → Except Error (Identifier F)
  | 0, _, i => .ok i
  | _ + 1, [], i => .ok i
  | fuel + 1, value, i =>
    match textOf value with
    | none => .error .columnNameMustBeString
    | some name =>
      let value := valuesNext value
      if name = nameId then
        if i.found then
          if db.noKey then .error .duplicatedIdColumns
          else .error (.duplicatedIdentifierColumns i.name nameId)
        else scanLoop db fuel (valuesNext value) { i with id := some value }
      else if name = nameKey then
        if db.noKey then .error .noKeyDoesNotAcceptKey
        else if i.found then .error (.duplicatedIdentifierColumns i.name nameKey)
        else scanLoop db fuel (valuesNext value) { i with key := some value }
      else scanLoop db fuel (valuesNext value) i

/-- What both forms do when the record is found: its id, and the loader. -/
def withRecord (db : Db F σ C) (id : ℕ) (key : Option (List (Entry F)))
    (setValues : ℕ → Loader σ C → Loader σ C) (idIfGone : ℕ → ℕ) (l : Loader σ C) : ℕ × Loader σ C :=
  match loaderAddRecord db id key l.ctx with
  | (0, ctx) => (0, { l with ctx := ctx })
  | (id, ctx) =>
    let l := { l with ctx := ctx }
    if l.lockTable then
      match db.tableAt id l.ctx with
      | (at', ctx) =>
        let l := { l with ctx := ctx }
        if at' = id then (id, applyEach db id (setValues id l)) else (idIfGone id, l)
    else (id, applyEach db id (setValues id l))

/-- `grn_loader_brace_add_record_internal`: the id of the record, and the loader. -/
def braceAddRecordInternal (db : Db F σ C) (braceValue : List (Entry F)) (l : Loader σ C) :
    ℕ × Loader σ C :=
  match scanLoop db (contents braceValue).length (contents braceValue) ⟨none, none⟩ with
  | .error e => (0, { l with ctx := l.ctx.err e })
  | .ok i =>
    if !db.noKey && !i.found then (0, { l with ctx := l.ctx.err .noIdentifier })
    else
      match i.id with
      | some value =>
        let (id, ctx) := parseIdValue db value l.ctx
        if ctx.rc ≠ none then (0, { l with ctx := ctx })
        else
          withRecord db id none (fun id => braceSetValues db id braceValue) (fun _ => 0)
            { l with ctx := ctx }
      | none => withRecord db 0 i.key (fun id => braceSetValues db id braceValue) (fun _ => 0) l

/-! ## Arrays -/

/-- The part of `grn_loader_bracket_set_columns` for `_id` and `_key`, at the column `i`. -/
def setOffset (db : Db F σ C) (i : ℕ) (name : List UInt8) (l : Loader σ C) :
    Except Error (Loader σ C) :=
  let found := l.idOffset.isSome || l.keyOffset.isSome
  let first := if l.idOffset.isSome then nameId else nameKey
  if name = nameId then
    if found then
      if db.noKey then .error .duplicatedIdColumns
      else .error (.duplicatedIdentifierColumns first nameId)
    else .ok { l with idOffset := some i }
  else if name = nameKey then
    if db.noKey then .error .noKeyDoesNotAcceptKey
    else if found then .error (.duplicatedIdentifierColumns first nameKey)
    else .ok { l with keyOffset := some i }
  else .ok l

/-- `grn_loader_get_column`: the loader knows the column, if there is one. -/
def getColumn (db : Db F σ C) (name : List UInt8) (l : Loader σ C) : Option (Loader σ C) :=
  if l.columns.any (·.1 = name) then some l
  else (db.column name).map fun column => { l with columns := l.columns ++ [(name, column)] }

/-- The loop of `grn_loader_bracket_set_columns` over the header, from the column `i` on. -/
def setColumnsLoop (db : Db F σ C) : ℕ → ℕ → List (Entry F) → Loader σ C →
    Loader σ C × Option Error
  | 0, _, _, l => (l, none)
  | _ + 1, _, [], l => (l, none)
  | fuel + 1, i, value, l =>
    match textOf value with
    | none => (l, some .columnNameMustBeString)
    | some name =>
      match setOffset db i name l with
      | .error e => (l, some e)
      | .ok l =>
        match getColumn db name l with
        | none => (l, some (.nonexistentColumn name))
        | some l => setColumnsLoop db fuel (i + 1) (valuesNext value) l

/-- The header is broken. -/
def Loader.breakColumns (l : Loader σ C) (e : Error) : Loader σ C :=
  { { l with ctx := l.ctx.err e }.saveError with columnsStatus := .broken }

/-- `grn_loader_bracket_set_columns`. -/
def bracketSetColumns (db : Db F σ C) (bracketValue : List (Entry F)) (l : Loader σ C) :
    Loader σ C :=
  match setColumnsLoop db (contents bracketValue).length 0 (contents bracketValue) l with
  | (l, some e) => l.breakColumns e
  | (l, none) =>
    if !db.noKey && !(l.idOffset.isSome || l.keyOffset.isSome) then l.breakColumns .noIdentifier
    else { l with columnsStatus := .set }

/-- The loop of `grn_loader_bracket_set_values`, from the column `i` on. -/
def bracketSetValuesLoop (db : Db F σ C) (id : ℕ) : List (List UInt8 × C) → ℕ → List (Entry F) →
    Loader σ C → Loader σ C
  | [], _, _, l => l
  | _ :: _, _, [], l => l
  | (_, column) :: columns, i, value, l =>
    let l := if some i = l.idOffset ∨ some i = l.keyOffset then l else setColumn db id column value l
    bracketSetValuesLoop db id columns (i + 1) (valuesNext value) l

/-- `grn_loader_bracket_set_values`. -/
def bracketSetValues (db : Db F σ C) (id : ℕ) (bracketValue : List (Entry F)) (l : Loader σ C) :
    Loader σ C :=
  bracketSetValuesLoop db id l.columns 0 (contents bracketValue) l

/-- `grn_loader_bracket_add_record_internal`: the id of the record, and the loader. The key is
taken `key_offset` entries behind the first value. -/
def bracketAddRecordInternal (db : Db F σ C) (bracketValue : List (Entry F)) (l : Loader σ C) :
    ℕ × Loader σ C :=
  let nValues := grnLoaderBracketCount bracketValue
  if nValues = 0 then
    if db.noKey then
      let (id, ctx) := db.tableAdd l.ctx
      (id, { l with ctx := ctx })
    else (0, { l with ctx := l.ctx.err .noIdentifier })
  else if nValues ≠ l.columns.length then
    (0, { l with ctx := l.ctx.err (.unexpectedNumberOfValues l.columns.length nValues) })
  else
    match l.idOffset with
    | some idOffset =>
      let (id, ctx) := parseIdValue db (grnLoaderBracketGet bracketValue idOffset) l.ctx
      if ctx.rc ≠ none then (0, { l with ctx := ctx })
      else
        withRecord db id none (fun id => bracketSetValues db id bracketValue) (fun id => id)
          { l with ctx := ctx }
    | none =>
      let key := l.keyOffset.map fun keyOffset => (contents bracketValue).drop keyOffset
      withRecord db 0 key (fun id => bracketSetValues db id bracketValue) (fun id => id) l

/-! ## The records of a load -/

/-- `bracket_close` for an element of the outermost array. -/
def bracketClose (db : Db F σ C) (bracketValue : List (Entry F)) (l : Loader σ C) : Loader σ C :=
  let l :=
    match l.columnsStatus with
    | .broken => l
    | .unset => bracketSetColumns db bracketValue l
    | .set =>
      let (id, l) := bracketAddRecordInternal db bracketValue l
      l.onRecordAdded id
  { l with ctx := l.ctx.clear }

/-- `brace_close` for an element of the outermost array. -/
def braceClose (db : Db F σ C) (braceValue : List (Entry F)) (l : Loader σ C) : Loader σ C :=
  let (id, l) := braceAddRecordInternal db braceValue l
  let l := l.onRecordAdded id
  { l with ctx := l.ctx.clear }

end Groonga.Load
