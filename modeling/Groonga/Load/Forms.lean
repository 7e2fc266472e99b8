import Groonga.Load.Record

/-!
# Both forms of a record

A record in array form belongs to a header, a list of column names. The object with the
members of the header's names and the record's values is its object form.

Both forms look for the identifier, add the record and set the columns in the order of the
header. They differ in one place. The array form does not skip from value to value to find
`_key`: it takes the entry that is `key_offset` entries behind the first one, which belongs
to another value if there is an array or object with entries before. And an empty array is a
record on its own, for which `--each` is not executed.
-/

namespace Groonga.Load

variable {F σ C : Type}

/-! ## Loads -/

/-- The header as an element of the outermost array. -/
def header (names : List (List UInt8)) : Json F := .array (names.map fun name => .scalar (.text name))

/-- The two forms. -/
inductive Form where
  | array
  | object
deriving DecidableEq, Repr

/-- A record under a header. -/
def element (names : List (List UInt8)) : Form → List (Json F) → Json F
  | .array, values => .array values
  | .object, values => .object (names.zip values)

/-- The elements of the outermost array, one after the other. -/
def load (db : Db F σ C) (elements : List (Json F)) (l : Loader σ C) : Loader σ C :=
  elements.foldl (fun l e =>
    match e with
    | .scalar _ => l
    | .array _ => bracketClose db e.flatten l
    | .object _ => braceClose db e.flatten l) l

/-- The loader at the start of a load. -/
def Loader.start (ctx : Ctx σ) (lockTable : Bool) : Loader σ C where
  ctx := ctx
  columns := []
  columnsStatus := .unset
  idOffset := none
  keyOffset := none
  lockTable := lockTable
  error := none
  nRecords := 0
  nRecordErrors := 0
  nColumnErrors := 0
  ids := []
  returnCodes := []

/-- A record that was just added, or found, is there. -/
def Db.KeepsAdded (db : Db F σ C) : Prop :=
  ∀ id key ctx, (loaderAddRecord db id key ctx).1 ≠ 0 →
    db.tableAt (loaderAddRecord db id key ctx).1 (loaderAddRecord db id key ctx).2 =
      loaderAddRecord db id key ctx

/-- **Both forms load the same**: for every table that accepts the header, a load of records
in the given forms ends as the load of the same records as objects. -/
def SameEffect (names : List (List UInt8)) (records : List (Form × List (Json F))) : Prop :=
  ∀ (σ C : Type) (db : Db F σ C) (ctx : Ctx σ) (lockTable : Bool), db.KeepsAdded →
    (load db [header names] (Loader.start ctx lockTable)).columnsStatus = .set →
    load db (header names :: records.map fun r => element names r.1 r.2) (Loader.start ctx lockTable) =
      load db (header names :: records.map fun r => element names .object r.2)
        (Loader.start ctx lockTable)

/-- The entry where the array form looks for the key, with what belongs to it, is the value of
`_key`. -/
def KeyInPlace (names : List (List UInt8)) (values : List (Json F)) : Prop :=
  ∀ k v, names[k]? = some nameKey → values[k]? = some v →
    valueAt ((flattenAll values).drop k) = v.flatten

/-- A header has no name twice, and not both identifiers. -/
structure IsHeader (names : List (List UInt8)) : Prop where
  nodup : names.Nodup
  identifier : ¬ (nameId ∈ names ∧ nameKey ∈ names)

/-! ## Setting the columns -/

variable {db : Db F σ C} {l : Loader σ C} {names : List (List UInt8)} {values : List (Json F)}
  {id : ℕ}

/-- The columns of a record in the order of its members. -/
def setAll (db : Db F σ C) (id : ℕ) : List (List UInt8 × Json F) → Loader σ C → Loader σ C
  | [], l => l
  | (name, v) :: members, l =>
    setAll db id members <|
      if name = nameId ∨ name = nameKey then l
      else
        match db.column name with
        | none => { l with ctx := l.ctx.err (.nonexistentColumn name) }.onColumnSet
        | some column => setColumn db id column v.flatten l

/-- Only the entries of the value matter. -/
theorem setColumn_flatten (column : C) (v : Json F) (rest : List (Entry F)) :
    setColumn db id column (v.flatten ++ rest) l = setColumn db id column v.flatten l := by
  have hrest := valueAt_flatten v rest
  have hnil := valueAt_flatten v []
  rw [List.append_nil] at hnil
  obtain ⟨e, values, h, -⟩ := v.exists_flatten_eq
  rw [h] at hrest hnil
  rw [h, List.cons_append] at *
  cases e <;> simp only [setColumn, hrest, hnil]

theorem braceSetValuesLoop_eq {members : List (List UInt8 × Json F)} {fuel : ℕ}
    (hfuel : (flattenMembers members).length ≤ fuel) :
    braceSetValuesLoop db id fuel (flattenMembers members) l = setAll db id members l := by
  induction members generalizing fuel l with
  | nil => cases fuel <;> simp [braceSetValuesLoop, setAll]
  | cons m members ih =>
    obtain ⟨name, v⟩ := m
    rw [flattenMembers_cons, List.length_cons, List.length_append] at hfuel
    obtain ⟨fuel, rfl⟩ : ∃ n, fuel = n + 1 := ⟨fuel - 1, by omega⟩
    rw [flattenMembers_cons, braceSetValuesLoop]
    · simp only [textOf, Option.getD_some, List.drop_one, List.tail_cons, valuesNext_flatten,
        setColumn_flatten, setAll]
      exact ih (by omega)
    · exact List.cons_ne_nil _ _

theorem braceSetValues_eq (members : List (List UInt8 × Json F)) :
    braceSetValues db id (Json.object members).flatten l = setAll db id members l := by
  rw [braceSetValues, contents_object]
  exact braceSetValuesLoop_eq (Nat.le_refl _)

/-- The loaders know the same header. -/
structure SameHeader (l l' : Loader σ C) : Prop where
  columns : l'.columns = l.columns
  columnsStatus : l'.columnsStatus = l.columnsStatus
  idOffset : l'.idOffset = l.idOffset
  keyOffset : l'.keyOffset = l.keyOffset
  lockTable : l'.lockTable = l.lockTable

theorem SameHeader.trans {l' l'' : Loader σ C} (h : SameHeader l l') (h' : SameHeader l' l'') :
    SameHeader l l'' where
  columns := h'.columns.trans h.columns
  columnsStatus := h'.columnsStatus.trans h.columnsStatus
  idOffset := h'.idOffset.trans h.idOffset
  keyOffset := h'.keyOffset.trans h.keyOffset
  lockTable := h'.lockTable.trans h.lockTable

theorem sameHeader_ctx (ctx : Ctx σ) : SameHeader l { l with ctx := ctx } := ⟨rfl, rfl, rfl, rfl, rfl⟩

theorem sameHeader_onColumnSet (l : Loader σ C) : SameHeader l l.onColumnSet := by
  unfold Loader.onColumnSet
  split_ifs
  · exact ⟨rfl, rfl, rfl, rfl, rfl⟩
  · exact ⟨rfl, rfl, rfl, rfl, rfl⟩

theorem sameHeader_setColumn (column : C) (value : List (Entry F)) :
    SameHeader l (setColumn db id column value l) :=
  (sameHeader_ctx _).trans (sameHeader_onColumnSet _)

theorem sameHeader_setAll (members : List (List UInt8 × Json F)) :
    SameHeader l (setAll db id members l) := by
  induction members generalizing l with
  | nil => exact ⟨rfl, rfl, rfl, rfl, rfl⟩
  | cons m members ih =>
    obtain ⟨name, v⟩ := m
    rw [setAll]
    refine SameHeader.trans ?_ ih
    split_ifs
    · exact ⟨rfl, rfl, rfl, rfl, rfl⟩
    · cases db.column name with
      | none => exact (sameHeader_ctx _).trans (sameHeader_onColumnSet _)
      | some column => exact sameHeader_setColumn column v.flatten

/-- The columns from the `i`-th on, when the offsets of the identifiers are known. -/
theorem bracketSetValuesLoop_eq {columns : List (List UInt8 × C)} {i : ℕ}
    (hlen : columns.length = values.length) (hcolumn : ∀ c ∈ columns, db.column c.1 = some c.2)
    (hoffset : ∀ j name, (columns.map Prod.fst)[j]? = some name →
      (some (i + j) = l.idOffset ∨ some (i + j) = l.keyOffset ↔ name = nameId ∨ name = nameKey)) :
    bracketSetValuesLoop db id columns i (flattenAll values) l =
      setAll db id ((columns.map Prod.fst).zip values) l := by
  induction columns generalizing values i l with
  | nil => simp [bracketSetValuesLoop, setAll]
  | cons c columns ih =>
    obtain ⟨name, column⟩ := c
    cases values with
    | nil => simp at hlen
    | cons v values =>
      have hfirst := hoffset 0 name (by simp)
      have hlookup := hcolumn (name, column) List.mem_cons_self
      rw [Nat.add_zero] at hfirst
      set l' := if name = nameId ∨ name = nameKey then l else setColumn db id column v.flatten l
        with hl'
      have hsame : SameHeader l l' := by
        rw [hl']
        split_ifs
        · exact ⟨rfl, rfl, rfl, rfl, rfl⟩
        · exact sameHeader_setColumn column v.flatten
      have hstep : bracketSetValuesLoop db id ((name, column) :: columns) i (flattenAll (v :: values)) l =
          bracketSetValuesLoop db id columns (i + 1) (flattenAll values) l' := by
        rw [flattenAll_cons]
        have hnext := valuesNext_flatten v (flattenAll values)
        have hset := @setColumn_flatten F σ C db l id column v (flattenAll values)
        obtain ⟨e, rest, h, -⟩ := v.exists_flatten_eq
        rw [h, List.cons_append] at hnext hset ⊢
        rw [bracketSetValuesLoop, hnext, hset]
        · simp only [hfirst, hl', h]
        · exact List.cons_ne_nil _ _
      rw [hstep, List.map_cons, List.zip_cons_cons, setAll]
      simp only [hlookup]
      refine ih (by simpa using hlen) (fun c hc => hcolumn c (List.mem_cons_of_mem _ hc)) ?_
      intro j name' hj
      rw [hsame.idOffset, hsame.keyOffset, Nat.add_assoc, Nat.add_comm 1 j]
      exact hoffset (j + 1) name' (by simpa using hj)

/-! ## The header -/

/-- The loader knows the columns of a header. -/
structure Knows (db : Db F σ C) (names : List (List UInt8)) (l : Loader σ C) : Prop where
  names_eq : l.columns.map Prod.fst = names
  column : ∀ c ∈ l.columns, db.column c.1 = some c.2
  idOffset : ∀ i, l.idOffset = some i ↔ names[i]? = some nameId
  keyOffset : ∀ i, l.keyOffset = some i ↔ names[i]? = some nameKey
  noKey : db.noKey = true → nameKey ∉ names

theorem Knows.congr {l' : Loader σ C} (h : Knows db names l) (hsame : SameHeader l l') :
    Knows db names l' where
  names_eq := by rw [hsame.columns]; exact h.names_eq
  column := by rw [hsame.columns]; exact h.column
  idOffset := by rw [hsame.idOffset]; exact h.idOffset
  keyOffset := by rw [hsame.keyOffset]; exact h.keyOffset
  noKey := h.noKey

/-- **Setting the columns is the same in both forms.** -/
theorem Knows.bracketSetValues_eq (h : Knows db names l) (hlen : values.length = names.length) :
    bracketSetValues db id (Json.array values).flatten l =
      braceSetValues db id (Json.object (names.zip values)).flatten l := by
  rw [braceSetValues_eq, bracketSetValues, contents_array, ← h.names_eq]
  refine bracketSetValuesLoop_eq ?_ h.column fun j name hj => ?_
  · rw [hlen, ← h.names_eq, List.length_map]
  · rw [Nat.zero_add, @eq_comm _ (some j), @eq_comm _ (some j), h.idOffset, h.keyOffset,
      ← h.names_eq, hj, Option.some.injEq, Option.some.injEq]

theorem getElem?_concat {α : Type} {pre : List α} {x y : α} {j : ℕ} :
    (pre ++ [x])[j]? = some y ↔ pre[j]? = some y ∨ j = pre.length ∧ x = y := by
  rcases Nat.lt_trichotomy j pre.length with hlt | rfl | hgt
  · rw [List.getElem?_append_left hlt]
    simp [Nat.ne_of_lt hlt]
  · simp
  · have h1 : (pre ++ [x])[j]? = none := by simp; omega
    have h2 : pre[j]? = none := by simp; omega
    simp [h1, h2, Nat.ne_of_gt hgt]

/-- What the loader may do with a name of the header. -/
theorem setOffset_eq_ok {l' : Loader σ C} {i : ℕ} {name : List UInt8} :
    setOffset db i name l = .ok l' ↔
      (name = nameId ∧ l.idOffset = none ∧ l.keyOffset = none ∧ l' = { l with idOffset := some i }) ∨
      (name = nameKey ∧ db.noKey = false ∧ l.idOffset = none ∧ l.keyOffset = none ∧
        l' = { l with keyOffset := some i }) ∨
      (name ≠ nameId ∧ name ≠ nameKey ∧ l' = l) := by
  have hne : nameId ≠ nameKey := by decide
  obtain ⟨ctx, columns, status, idOffset, keyOffset, lockTable, error, n1, n2, n3, ids, codes⟩ := l
  unfold setOffset
  by_cases hid : name = nameId
  · subst hid
    cases idOffset <;> cases keyOffset <;> cases db.noKey <;> simp [hne, eq_comm]
  · by_cases hkey : name = nameKey
    · subst hkey
      cases idOffset <;> cases keyOffset <;> cases db.noKey <;> simp [hid, eq_comm]
    · simp only [hid, hkey, if_false, Except.ok.injEq, false_and, false_or, ne_eq, not_false_eq_true,
        true_and]
      exact eq_comm

namespace Knows

theorem idOffset_eq_none (h : Knows db names l) : l.idOffset = none ↔ nameId ∉ names := by
  rw [List.mem_iff_getElem?, Option.eq_none_iff_forall_ne_some, not_exists]
  exact forall_congr' fun i => not_congr (h.idOffset i)

theorem keyOffset_eq_none (h : Knows db names l) : l.keyOffset = none ↔ nameKey ∉ names := by
  rw [List.mem_iff_getElem?, Option.eq_none_iff_forall_ne_some, not_exists]
  exact forall_congr' fun i => not_congr (h.keyOffset i)

/-- The column of one more name. -/
theorem concat {l' l'' : Loader σ C} {name : List UInt8} (h : Knows db names l) (hname : name ∉ names)
    (hoffset : setOffset db names.length name l = .ok l') (hget : getColumn db name l' = some l'') :
    Knows db (names ++ [name]) l'' := by
  -- the offsets before the column is added
  have hl' : (l'.columns = l.columns) ∧ (∀ i, l'.idOffset = some i ↔ (names ++ [name])[i]? = some nameId) ∧
      (∀ i, l'.keyOffset = some i ↔ (names ++ [name])[i]? = some nameKey) ∧
      (db.noKey = true → name ≠ nameKey) := by
    simp only [getElem?_concat, ← h.idOffset, ← h.keyOffset]
    have hne : nameId ≠ nameKey := by decide
    rcases setOffset_eq_ok.mp hoffset with ⟨rfl, hid, -, rfl⟩ | ⟨rfl, hnoKey, -, hkey, rfl⟩ |
      ⟨hid, hkey, rfl⟩
    · exact ⟨rfl, fun i => by simp [hid, eq_comm], fun i => by simp [hne], fun _ => hne⟩
    · exact ⟨rfl, fun i => by simp [hne.symm], fun i => by simp [hkey, eq_comm], by simp [hnoKey]⟩
    · exact ⟨rfl, fun i => by simp [hid], fun i => by simp [hkey], fun _ => hkey⟩
  obtain ⟨hcolumns, hidOffset, hkeyOffset, hnoKey⟩ := hl'
  have hany : (l'.columns.any (·.1 = name)) = false := by
    rw [hcolumns, Bool.eq_false_iff]
    intro hmem
    obtain ⟨c, hc, hname'⟩ := List.any_eq_true.mp hmem
    refine hname ?_
    rw [← h.names_eq, ← of_decide_eq_true hname']
    exact List.mem_map_of_mem hc
  rw [getColumn, hany, if_neg Bool.false_ne_true] at hget
  obtain ⟨column, hlookup, rfl⟩ := Option.map_eq_some_iff.mp hget
  refine ⟨?_, ?_, hidOffset, hkeyOffset, ?_⟩
  · simp [hcolumns, h.names_eq]
  · intro c hc
    rw [hcolumns] at hc
    rcases List.mem_append.mp hc with hc | hc
    · exact h.column c hc
    · obtain rfl := List.mem_singleton.mp hc
      exact hlookup
  · intro hn hmem
    rcases List.mem_append.mp hmem with hmem | hmem
    · exact h.noKey hn hmem
    · exact hnoKey hn (List.mem_singleton.mp hmem).symm

end Knows

theorem flattenAll_names (name : List UInt8) (names : List (List UInt8)) :
    flattenAll ((name :: names).map fun name => (Json.scalar (.text name) : Json F)) =
      .scalar (.text name) :: flattenAll (names.map fun name => .scalar (.text name)) := by
  rw [List.map_cons, flattenAll_cons, Json.flatten]
  rfl

/-- **A header that is accepted.** -/
theorem knows_of_setColumnsLoop {pre : List (List UInt8)} {fuel : ℕ} (h : Knows db pre l)
    (hnodup : (pre ++ names).Nodup)
    (hfuel : (flattenAll (names.map fun name => (Json.scalar (.text name) : Json F))).length ≤ fuel)
    (hnone : (setColumnsLoop db fuel pre.length
      (flattenAll (names.map fun name => .scalar (.text name))) l).2 = none) :
    Knows db (pre ++ names) (setColumnsLoop db fuel pre.length
      (flattenAll (names.map fun name => .scalar (.text name))) l).1 := by
  induction names generalizing pre fuel l with
  | nil =>
    rw [List.map_nil, flattenAll_nil, List.append_nil]
    cases fuel <;> exact h
  | cons name names ih =>
    rw [flattenAll_names] at hfuel hnone ⊢
    obtain ⟨fuel, rfl⟩ : ∃ n, fuel = n + 1 := ⟨fuel - 1, by simp at hfuel; omega⟩
    have hname : name ∉ pre := fun hmem =>
      (List.nodup_append.mp hnodup).2.2 name hmem name List.mem_cons_self rfl
    simp only [setColumnsLoop, textOf, valuesNext, Entry.size, List.drop_zero] at hnone ⊢
    cases hoffset : setOffset db pre.length name l with
    | error e => simp [hoffset] at hnone
    | ok l' =>
      cases hget : getColumn db name l' with
      | none => simp [hoffset, hget] at hnone
      | some l'' =>
        have hknows := h.concat hname hoffset hget
        simp only [hoffset, hget] at hnone ⊢
        have hlength : pre.length + 1 = (pre ++ [name]).length := by simp
        rw [hlength] at hnone ⊢
        have happend : pre ++ name :: names = pre ++ [name] ++ names := by simp
        rw [happend] at hnodup ⊢
        exact ih hknows hnodup (by simpa using hfuel) hnone

/-- The loader after an accepted header. -/
theorem knows_of_accepted {ctx : Ctx σ} {lockTable : Bool} (hnames : names.Nodup)
    (hset : (load db [header names] (Loader.start ctx lockTable)).columnsStatus = .set) :
    Knows db names (load db [header names] (Loader.start ctx lockTable)) ∧
      (db.noKey = false → nameId ∈ names ∨ nameKey ∈ names) := by
  have hstart : Knows db [] (Loader.start ctx lockTable : Loader σ C) :=
    ⟨rfl, by simp [Loader.start], by simp [Loader.start], by simp [Loader.start], by simp⟩
  have hloop := @knows_of_setColumnsLoop F σ C db _ names [] _ hstart (by simpa using hnames) (Nat.le_refl _)
  rw [List.nil_append, List.length_nil] at hloop
  have hload : load db [header names] (Loader.start ctx lockTable) =
      { bracketSetColumns db (header names).flatten (Loader.start ctx lockTable) with
        ctx := (bracketSetColumns db (header names).flatten (Loader.start ctx lockTable)).ctx.clear } :=
    rfl
  rw [hload] at hset ⊢
  rw [bracketSetColumns, header, contents_array] at hset ⊢
  generalize setColumnsLoop db _ 0 _ (Loader.start ctx lockTable) = r at hloop hset ⊢
  obtain ⟨l, e⟩ := r
  cases e with
  | some e => cases hset
  | none =>
    have hknows : Knows db names l := hloop rfl
    simp only at hset ⊢
    split_ifs at hset ⊢ with hmissing
    · cases hset
    · refine ⟨⟨hknows.names_eq, hknows.column, hknows.idOffset, hknows.keyOffset, hknows.noKey⟩,
        fun hnoKey => ?_⟩
      by_contra hno
      rw [not_or] at hno
      refine hmissing ?_
      simp [hnoKey, hknows.idOffset_eq_none.mpr hno.1, hknows.keyOffset_eq_none.mpr hno.2]

/-! ## The identifier -/

/-- The name is not an identifier. -/
def Plain (name : List UInt8) : Prop := name ≠ nameId ∧ name ≠ nameKey

/-- The scan of one member. -/
theorem scanLoop_cons (fuel : ℕ) (name : List UInt8) (v : Json F)
    (members : List (List UInt8 × Json F)) (i : Identifier F) :
    scanLoop db (fuel + 1) (flattenMembers ((name, v) :: members)) i =
      if name = nameId then
        if i.found then
          if db.noKey then .error .duplicatedIdColumns
          else .error (.duplicatedIdentifierColumns i.name nameId)
        else scanLoop db fuel (flattenMembers members)
          { i with id := some (v.flatten ++ flattenMembers members) }
      else if name = nameKey then
        if db.noKey then .error .noKeyDoesNotAcceptKey
        else if i.found then .error (.duplicatedIdentifierColumns i.name nameKey)
        else scanLoop db fuel (flattenMembers members)
          { i with key := some (v.flatten ++ flattenMembers members) }
      else scanLoop db fuel (flattenMembers members) i := by
  rw [flattenMembers_cons, scanLoop]
  · simp only [textOf, valuesNext_scalar, valuesNext_flatten]
  · exact List.cons_ne_nil _ _

/-- Members that are not identifiers are passed over. -/
theorem scanLoop_skip {pre members : List (List UInt8 × Json F)} {fuel : ℕ} {i : Identifier F}
    (hpre : ∀ m ∈ pre, Plain m.1) (hfuel : (flattenMembers (pre ++ members)).length ≤ fuel) :
    ∃ fuel', (flattenMembers members).length ≤ fuel' ∧
      scanLoop db fuel (flattenMembers (pre ++ members)) i =
        scanLoop db fuel' (flattenMembers members) i := by
  induction pre generalizing fuel with
  | nil => exact ⟨fuel, hfuel, rfl⟩
  | cons m pre ih =>
    obtain ⟨name, v⟩ := m
    obtain ⟨hid, hkey⟩ := hpre _ List.mem_cons_self
    rw [List.cons_append, flattenMembers_cons, List.length_cons, List.length_append] at hfuel
    obtain ⟨fuel, rfl⟩ : ∃ n, fuel = n + 1 := ⟨fuel - 1, by omega⟩
    obtain ⟨fuel', hfuel', heq⟩ := ih (fun m hm => hpre m (List.mem_cons_of_mem _ hm))
      (show (flattenMembers (pre ++ members)).length ≤ fuel by omega)
    refine ⟨fuel', hfuel', ?_⟩
    rw [List.cons_append, scanLoop_cons, if_neg hid, if_neg hkey, heq]

/-- **The scan of the members**: no identifier, `_id` or `_key`. -/
theorem scanLoop_plain {members : List (List UInt8 × Json F)} {fuel : ℕ} {i : Identifier F}
    (hplain : ∀ m ∈ members, Plain m.1) (hfuel : (flattenMembers members).length ≤ fuel) :
    scanLoop db fuel (flattenMembers members) i = .ok i := by
  obtain ⟨fuel', -, heq⟩ := @scanLoop_skip F σ C db members [] fuel i hplain (by simpa using hfuel)
  rw [List.append_nil] at heq
  rw [heq]
  cases fuel' <;> simp [scanLoop]

theorem scanLoop_id {pre post : List (List UInt8 × Json F)} {v : Json F} {fuel : ℕ}
    (hpre : ∀ m ∈ pre, Plain m.1) (hpost : ∀ m ∈ post, Plain m.1)
    (hfuel : (flattenMembers (pre ++ (nameId, v) :: post)).length ≤ fuel) :
    scanLoop db fuel (flattenMembers (pre ++ (nameId, v) :: post)) ⟨none, none⟩ =
      .ok ⟨some (v.flatten ++ flattenMembers post), none⟩ := by
  obtain ⟨fuel', hfuel', heq⟩ := @scanLoop_skip F σ C db pre _ fuel ⟨none, none⟩ hpre hfuel
  rw [flattenMembers_cons, List.length_cons, List.length_append] at hfuel'
  obtain ⟨fuel', rfl⟩ : ∃ n, fuel' = n + 1 := ⟨fuel' - 1, by omega⟩
  rw [heq, scanLoop_cons, if_pos rfl]
  simp only [Identifier.found, Option.isSome_none, Bool.or_self, Bool.false_eq_true, if_false]
  exact scanLoop_plain hpost (by omega)

theorem scanLoop_key {pre post : List (List UInt8 × Json F)} {v : Json F} {fuel : ℕ}
    (hnoKey : db.noKey = false) (hpre : ∀ m ∈ pre, Plain m.1) (hpost : ∀ m ∈ post, Plain m.1)
    (hfuel : (flattenMembers (pre ++ (nameKey, v) :: post)).length ≤ fuel) :
    scanLoop db fuel (flattenMembers (pre ++ (nameKey, v) :: post)) ⟨none, none⟩ =
      .ok ⟨none, some (v.flatten ++ flattenMembers post)⟩ := by
  obtain ⟨fuel', hfuel', heq⟩ := @scanLoop_skip F σ C db pre _ fuel ⟨none, none⟩ hpre hfuel
  rw [flattenMembers_cons, List.length_cons, List.length_append] at hfuel'
  obtain ⟨fuel', rfl⟩ : ∃ n, fuel' = n + 1 := ⟨fuel' - 1, by omega⟩
  rw [heq, scanLoop_cons, if_neg (by decide), if_pos rfl]
  simp only [hnoKey, Identifier.found, Option.isSome_none, Bool.or_self, Bool.false_eq_true, if_false]
  exact scanLoop_plain hpost (by omega)

/-- The members before and behind the name at an offset. -/
theorem exists_split {k : ℕ} {name : List UInt8} {v : Json F} (hnodup : names.Nodup)
    (hlen : values.length = names.length) (hname : names[k]? = some name) (hv : values[k]? = some v) :
    ∃ pre post, names.zip values = pre ++ (name, v) :: post ∧
      (∀ m ∈ pre ++ post, m.1 ∈ names ∧ m.1 ≠ name) := by
  have hzip : (names.zip values)[k]? = some (name, v) := by
    rw [List.getElem?_zip_eq_some]
    exact ⟨hname, hv⟩
  obtain ⟨hk, hget⟩ := List.getElem?_eq_some_iff.mp hzip
  have hsplit : names.zip values =
      (names.zip values).take k ++ (name, v) :: (names.zip values).drop (k + 1) := by
    rw [← hget, List.getElem_cons_drop, List.take_append_drop]
  have hnodup' : ((names.zip values).map Prod.fst).Nodup := by
    rw [List.map_fst_zip (Nat.le_of_eq hlen.symm)]
    exact hnodup
  refine ⟨_, _, hsplit, fun m hm => ⟨?_, ?_⟩⟩
  · have hmem : m ∈ names.zip values := by
      rw [hsplit]
      rcases List.mem_append.mp hm with hm | hm
      · exact List.mem_append_left _ hm
      · exact List.mem_append_right _ (List.mem_cons_of_mem _ hm)
    exact (List.of_mem_zip hmem).1
  · rw [hsplit, List.map_append, List.map_cons, List.nodup_append, List.nodup_cons] at hnodup'
    obtain ⟨-, ⟨hpost, -⟩, hpre⟩ := hnodup'
    rcases List.mem_append.mp hm with hm | hm
    · exact hpre _ (List.mem_map_of_mem hm) _ List.mem_cons_self
    · exact fun heq => hpost (List.mem_map.mpr ⟨m, hm, heq⟩)

/-! ## One record -/

theorem loaderAddRecord_congr {key key' : Option (List (Entry F))} {ctx : Ctx σ}
    (hkey : key.map valueAt = key'.map valueAt) :
    loaderAddRecord db id key ctx = loaderAddRecord db id key' ctx := by
  cases key <;> cases key' <;> simp_all [loaderAddRecord]

/-- Both forms do the same with a record that was added. -/
theorem withRecord_congr {key key' : Option (List (Entry F))} {f g : ℕ → Loader σ C → Loader σ C}
    {gone gone' : ℕ → ℕ} (hkeeps : db.KeepsAdded) (hkey : key.map valueAt = key'.map valueAt)
    (hfg : ∀ id ctx, f id { l with ctx := ctx } = g id { l with ctx := ctx }) :
    withRecord db id key f gone l = withRecord db id key' g gone' l := by
  have hadded := hkeeps id key' l.ctx
  rw [withRecord, withRecord, loaderAddRecord_congr hkey]
  generalize loaderAddRecord db id key' l.ctx = r at hadded
  obtain ⟨id', ctx⟩ := r
  cases id' with
  | zero => rfl
  | succ n =>
    simp only [hadded (Nat.succ_ne_zero n), hfg, if_true]

/-- Where an identifier of the header is, among the members. -/
theorem Knows.split {k : ℕ} {name : List UInt8} (hheader : IsHeader names)
    (hlen : values.length = names.length) (hname : names[k]? = some name)
    (hid : name = nameId ∨ name = nameKey) :
    ∃ v pre post, values[k]? = some v ∧ names.zip values = pre ++ (name, v) :: post ∧
      ∀ m ∈ pre ++ post, Plain m.1 := by
  obtain ⟨hk, -⟩ := List.getElem?_eq_some_iff.mp hname
  obtain ⟨v, hv⟩ : ∃ v, values[k]? = some v := ⟨_, List.getElem?_eq_getElem (by omega)⟩
  obtain ⟨pre, post, hzip, hrest⟩ := exists_split hheader.nodup hlen hname hv
  have hin : name ∈ names := List.mem_of_getElem? hname
  refine ⟨v, pre, post, hv, hzip, fun m hm => ?_⟩
  obtain ⟨hm, hne⟩ := hrest m hm
  rcases hid with rfl | rfl
  · exact ⟨hne, fun hkey => hheader.identifier ⟨hin, hkey ▸ hm⟩⟩
  · exact ⟨fun hid => hheader.identifier ⟨hid ▸ hm, hin⟩, hne⟩

/-- A record with `_id` in object form. -/
theorem braceAddRecordInternal_id {k : ℕ} (hheader : IsHeader names)
    (hlen : values.length = names.length) (hname : names[k]? = some nameId) :
    ∃ v, values[k]? = some v ∧ braceAddRecordInternal db (Json.object (names.zip values)).flatten l =
      if (parseIdValue db v.flatten l.ctx).2.rc ≠ none then
        (0, { l with ctx := (parseIdValue db v.flatten l.ctx).2 })
      else withRecord db (parseIdValue db v.flatten l.ctx).1 none
        (fun id => braceSetValues db id (Json.object (names.zip values)).flatten) (fun _ => 0)
        { l with ctx := (parseIdValue db v.flatten l.ctx).2 } := by
  obtain ⟨v, pre, post, hv, hzip, hplain⟩ := Knows.split hheader hlen hname (.inl rfl)
  have hnil := valueAt_flatten v []
  rw [List.append_nil] at hnil
  have hparse : parseIdValue db (v.flatten ++ flattenMembers post) l.ctx =
      parseIdValue db v.flatten l.ctx := by
    rw [parseIdValue, parseIdValue, valueAt_flatten, hnil]
  refine ⟨v, hv, ?_⟩
  rw [braceAddRecordInternal, contents_object, hzip,
    scanLoop_id (fun m hm => hplain m (List.mem_append_left _ hm))
      (fun m hm => hplain m (List.mem_append_right _ hm)) (Nat.le_refl _)]
  simp only [hparse, Identifier.found, Option.isSome_some, Bool.true_or, Bool.not_true,
    Bool.and_false, Bool.false_eq_true, if_false]

/-- A record with `_key` in object form. -/
theorem braceAddRecordInternal_key {k : ℕ} (hheader : IsHeader names)
    (hlen : values.length = names.length) (hname : names[k]? = some nameKey)
    (hnoKey : db.noKey = false) :
    ∃ v rest, values[k]? = some v ∧
      braceAddRecordInternal db (Json.object (names.zip values)).flatten l =
        withRecord db 0 (some (v.flatten ++ rest))
          (fun id => braceSetValues db id (Json.object (names.zip values)).flatten) (fun _ => 0) l := by
  obtain ⟨v, pre, post, hv, hzip, hplain⟩ := Knows.split hheader hlen hname (.inr rfl)
  refine ⟨v, flattenMembers post, hv, ?_⟩
  rw [braceAddRecordInternal, contents_object, hzip,
    scanLoop_key hnoKey (fun m hm => hplain m (List.mem_append_left _ hm))
      (fun m hm => hplain m (List.mem_append_right _ hm)) (Nat.le_refl _)]
  simp only [Identifier.found, Option.isSome_some, Bool.or_true, Bool.not_true, Bool.and_false,
    Bool.false_eq_true, if_false]

/-- A record without an identifier in object form. -/
theorem braceAddRecordInternal_none (hid : nameId ∉ names) (hkey : nameKey ∉ names)
    (hnoKey : db.noKey = true) :
    braceAddRecordInternal db (Json.object (names.zip values)).flatten l =
      withRecord db 0 none
        (fun id => braceSetValues db id (Json.object (names.zip values)).flatten) (fun _ => 0) l := by
  have hplain : ∀ m ∈ names.zip values, Plain m.1 := fun m hm =>
    ⟨fun h => hid (h ▸ (List.of_mem_zip hm).1), fun h => hkey (h ▸ (List.of_mem_zip hm).1)⟩
  rw [braceAddRecordInternal, contents_object, scanLoop_plain hplain (Nat.le_refl _)]
  simp only [hnoKey, Bool.not_true, Bool.false_and, Bool.false_eq_true, if_false]

/-- A record in array form with as many values as there are columns. -/
theorem Knows.bracketAddRecordInternal_eq (h : Knows db names l) (hlen : values.length = names.length)
    (hne : names ≠ []) :
    bracketAddRecordInternal db (Json.array values).flatten l =
      match l.idOffset with
      | some k =>
        let (id, ctx) := parseIdValue db (grnLoaderBracketGet (Json.array values).flatten k) l.ctx
        if ctx.rc ≠ none then (0, { l with ctx := ctx })
        else
          withRecord db id none (fun id => bracketSetValues db id (Json.array values).flatten)
            (fun id => id) { l with ctx := ctx }
      | none =>
        withRecord db 0 (l.keyOffset.map fun k => (flattenAll values).drop k)
          (fun id => bracketSetValues db id (Json.array values).flatten) (fun id => id) l := by
  have hcount : l.columns.length = names.length := by rw [← h.names_eq, List.length_map]
  have hpos : names.length ≠ 0 := fun h => hne (List.length_eq_zero_iff.mp h)
  rw [bracketAddRecordInternal, grnLoaderBracketCount_array, contents_array, hlen, hcount,
    if_neg hpos]
  refine (if_neg (by simp)).trans ?_
  cases l.idOffset <;> rfl

/-- **One record loads the same in both forms** if its key is in place. -/
theorem Knows.bracket_eq_brace (h : Knows db names l) (hheader : IsHeader names)
    (hkeeps : db.KeepsAdded) (hidentifier : db.noKey = false → nameId ∈ names ∨ nameKey ∈ names)
    (hlen : values.length = names.length) (hne : names ≠ []) (hplace : KeyInPlace names values) :
    bracketAddRecordInternal db (Json.array values).flatten l =
      braceAddRecordInternal db (Json.object (names.zip values)).flatten l := by
  have hset : ∀ id ctx, bracketSetValues db id (Json.array values).flatten { l with ctx := ctx } =
      braceSetValues db id (Json.object (names.zip values)).flatten { l with ctx := ctx } :=
    fun id ctx => (h.congr (sameHeader_ctx ctx)).bracketSetValues_eq hlen
  rw [h.bracketAddRecordInternal_eq hlen hne]
  cases hid : l.idOffset with
  | some k =>
    obtain ⟨v, hv, hbrace⟩ :=
      @braceAddRecordInternal_id F σ C db l names values k hheader hlen ((h.idOffset k).mp hid)
    have hnil := valueAt_flatten v []
    rw [List.append_nil] at hnil
    have hparse : parseIdValue db (grnLoaderBracketGet (Json.array values).flatten k) l.ctx =
        parseIdValue db v.flatten l.ctx := by
      rw [parseIdValue, parseIdValue, valueAt_grnLoaderBracketGet hv, hnil]
    rw [hbrace]
    simp only [hparse, hid]
    split_ifs
    · rfl
    · exact withRecord_congr hkeeps rfl fun id ctx => by simpa only [hid] using hset id ctx
  | none =>
    have hnoId := h.idOffset_eq_none.mp hid
    cases hkey : l.keyOffset with
    | some k =>
      have hname := (h.keyOffset k).mp hkey
      have hnoKey : db.noKey = false := Bool.eq_false_iff.mpr fun hn =>
        h.noKey hn (List.mem_of_getElem? hname)
      obtain ⟨v, rest, hv, hbrace⟩ :=
        @braceAddRecordInternal_key F σ C db l names values k hheader hlen hname hnoKey
      rw [hbrace]
      refine withRecord_congr hkeeps ?_ hset
      simp [hplace k v hname hv]
    | none =>
      have hnoKeyName := h.keyOffset_eq_none.mp hkey
      have hnoKey : db.noKey = true := by
        by_contra hfalse
        rcases hidentifier (Bool.eq_false_iff.mpr hfalse) with hmem | hmem
        · exact hnoId hmem
        · exact hnoKeyName hmem
      rw [braceAddRecordInternal_none hnoId hnoKeyName hnoKey]
      exact withRecord_congr hkeeps rfl hset

/-! ## The header stays -/

theorem sameHeader_applyEach : SameHeader l (applyEach db id l) := by
  unfold applyEach
  cases db.each with
  | none => exact ⟨rfl, rfl, rfl, rfl, rfl⟩
  | some each => exact sameHeader_ctx _

theorem sameHeader_withRecord {key : Option (List (Entry F))} {f : ℕ → Loader σ C → Loader σ C}
    {gone : ℕ → ℕ} (hf : ∀ id l, SameHeader l (f id l)) :
    SameHeader l (withRecord db id key f gone l).2 := by
  unfold withRecord
  generalize loaderAddRecord db id key l.ctx = r
  obtain ⟨id', ctx⟩ := r
  cases id' with
  | zero => exact sameHeader_ctx ctx
  | succ n =>
    simp only
    split_ifs
    · exact (sameHeader_ctx _).trans ((hf _ _).trans sameHeader_applyEach)
    · exact sameHeader_ctx _
    · exact (sameHeader_ctx _).trans ((hf _ _).trans sameHeader_applyEach)

theorem sameHeader_onRecordAdded : SameHeader l (l.onRecordAdded id) := by
  unfold Loader.onRecordAdded
  split_ifs
  · exact ⟨rfl, rfl, rfl, rfl, rfl⟩
  · exact ⟨rfl, rfl, rfl, rfl, rfl⟩

theorem sameHeader_braceClose (members : List (List UInt8 × Json F)) :
    SameHeader l (braceClose db (Json.object members).flatten l) := by
  have hset : ∀ id l, SameHeader l (braceSetValues db id (Json.object members).flatten l) := by
    intro id l
    rw [braceSetValues_eq]
    exact sameHeader_setAll members
  have hinternal : SameHeader l (braceAddRecordInternal db (Json.object members).flatten l).2 := by
    unfold braceAddRecordInternal
    cases scanLoop db _ _ _ with
    | error e => exact sameHeader_ctx _
    | ok i =>
      simp only
      split_ifs
      · exact sameHeader_ctx _
      · cases i.id with
        | none => exact sameHeader_withRecord hset
        | some value =>
          simp only
          split_ifs
          · exact sameHeader_ctx _
          · exact (sameHeader_ctx _).trans (sameHeader_withRecord hset)
  exact hinternal.trans (sameHeader_onRecordAdded.trans (sameHeader_ctx _))

/-! ## Sequences of records -/

/-- A load is the load of its first element and then of the others. -/
theorem load_cons (e : Json F) (elements : List (Json F)) :
    load db (e :: elements) l = load db elements (load db [e] l) := rfl

/-- The records of a load, when each one in array form has its key in place. -/
theorem load_records_eq (hheader : IsHeader names) (hkeeps : db.KeepsAdded)
    (hidentifier : db.noKey = false → nameId ∈ names ∨ nameKey ∈ names)
    {records : List (Form × List (Json F))} (h : Knows db names l) (hset : l.columnsStatus = .set)
    (hlen : ∀ r ∈ records, r.2.length = names.length)
    (hplace : ∀ r ∈ records, r.1 = .array → names ≠ [] ∧ KeyInPlace names r.2) :
    load db (records.map fun r => element names r.1 r.2) l =
      load db (records.map fun r => element names .object r.2) l := by
  induction records generalizing l with
  | nil => rfl
  | cons r records ih =>
    obtain ⟨form, values⟩ := r
    have hone : load db [element names form values] l = load db [element names .object values] l := by
      cases form with
      | object => rfl
      | array =>
        obtain ⟨hne, hkey⟩ := hplace _ List.mem_cons_self rfl
        have heq := h.bracket_eq_brace hheader hkeeps hidentifier (hlen _ List.mem_cons_self) hne hkey
        simp only [load, element, List.foldl_cons, List.foldl_nil, bracketClose, braceClose, hset, heq]
    have hsame : SameHeader l (load db [element names .object values] l) :=
      sameHeader_braceClose (names.zip values)
    rw [List.map_cons, List.map_cons, load_cons, hone]
    nth_rewrite 2 [load_cons]
    exact ih (h.congr hsame) (hsame.columnsStatus.trans hset)
      (fun r hr => hlen r (List.mem_cons_of_mem _ hr))
      fun r hr => hplace r (List.mem_cons_of_mem _ hr)

/-! ## A table that shows the difference -/

/-- A table that writes down the keys it is given, and when `--each` is executed. -/
def logDb (F : Type) (names : List (List UInt8)) : Db F (List (List (Entry F))) Unit where
  noKey := !decide (nameKey ∈ names)
  column := fun _ => some ()
  cast := fun _ => some 1
  tableAt := fun id ctx => (id, ctx)
  tableAdd := fun ctx => (1, ctx)
  tableAddByKey := fun key ctx => ((1, true), { ctx with db := ctx.db ++ [key] })
  ifExists := none
  each := some fun _ ctx => { ctx with db := ctx.db ++ [[]] }
  bracketSetValue := fun _ _ _ ctx => ctx
  braceSetValue := fun _ _ _ ctx => ctx
  setValue := fun _ _ _ ctx => ctx

theorem keepsAdded_logDb : (logDb F names).KeepsAdded := fun _ _ _ _ => rfl

/-- A table with every column accepts a header. -/
theorem setColumnsLoop_isOk {pre : List (List UInt8)} {fuel : ℕ} (h : Knows db pre l)
    (hcolumn : ∀ name, db.column name ≠ none) (hheader : IsHeader (pre ++ names))
    (hnoKey : db.noKey = true → nameKey ∉ pre ++ names)
    (hfuel : (flattenAll (names.map fun name => (Json.scalar (.text name) : Json F))).length ≤ fuel) :
    (setColumnsLoop db fuel pre.length
      (flattenAll (names.map fun name => .scalar (.text name))) l).2 = none := by
  induction names generalizing pre fuel l with
  | nil =>
    rw [List.map_nil, flattenAll_nil]
    cases fuel <;> rfl
  | cons name names ih =>
    rw [flattenAll_names] at hfuel ⊢
    obtain ⟨fuel, rfl⟩ : ∃ n, fuel = n + 1 := ⟨fuel - 1, by simp at hfuel; omega⟩
    have hin : name ∈ pre ++ name :: names := by simp
    have hpre : ∀ n ∈ pre, n ∈ pre ++ name :: names := fun n hn => List.mem_append_left _ hn
    have hname : name ∉ pre := fun hmem =>
      (List.nodup_append.mp hheader.nodup).2.2 name hmem name List.mem_cons_self rfl
    obtain ⟨l', hoffset⟩ : ∃ l', setOffset db pre.length name l = .ok l' := by
      by_cases hid : name = nameId
      · subst hid
        refine ⟨_, setOffset_eq_ok.mpr (.inl ⟨rfl, h.idOffset_eq_none.mpr hname, ?_, rfl⟩)⟩
        exact h.keyOffset_eq_none.mpr fun hkey => hheader.identifier ⟨hin, hpre _ hkey⟩
      · by_cases hkey : name = nameKey
        · subst hkey
          refine ⟨_, setOffset_eq_ok.mpr (.inr (.inl ⟨rfl, ?_, ?_, h.keyOffset_eq_none.mpr hname, rfl⟩))⟩
          · exact Bool.eq_false_iff.mpr fun hn => hnoKey hn hin
          · exact h.idOffset_eq_none.mpr fun hid => hheader.identifier ⟨hpre _ hid, hin⟩
        · exact ⟨_, setOffset_eq_ok.mpr (.inr (.inr ⟨hid, hkey, rfl⟩))⟩
    obtain ⟨l'', hget⟩ : ∃ l'', getColumn db name l' = some l'' := by
      unfold getColumn
      split_ifs
      · exact ⟨_, rfl⟩
      · obtain ⟨column, hc⟩ := Option.ne_none_iff_exists'.mp (hcolumn name)
        exact ⟨_, by rw [hc]; rfl⟩
    have hknows := h.concat hname hoffset hget
    simp only [setColumnsLoop, textOf, valuesNext_scalar, hoffset, hget]
    have happend : pre ++ name :: names = pre ++ [name] ++ names := by simp
    have hlength : pre.length + 1 = (pre ++ [name]).length := by simp
    rw [happend] at hheader hnoKey
    rw [hlength]
    exact ih hknows hheader hnoKey (by simpa using hfuel)

theorem accepted_logDb (hheader : IsHeader names) (ctx : Ctx (List (List (Entry F)))) (lockTable : Bool) :
    (load (logDb F names) [header names] (Loader.start ctx lockTable)).columnsStatus = .set := by
  have hstart : Knows (logDb F names) [] (Loader.start ctx lockTable : Loader _ Unit) :=
    ⟨rfl, by simp [Loader.start], by simp [Loader.start], by simp [Loader.start], by simp⟩
  have hok := setColumnsLoop_isOk hstart (by simp [logDb]) (by simpa using hheader)
    (by simp [logDb]) (Nat.le_refl _)
  have hknows := knows_of_setColumnsLoop hstart (by simpa using hheader.nodup) (Nat.le_refl _) hok
  rw [List.nil_append, List.length_nil] at hknows
  rw [List.length_nil] at hok
  simp only [load, header, List.foldl_cons, List.foldl_nil, bracketClose, bracketSetColumns, contents_array]
  generalize setColumnsLoop (logDb F names) _ 0 _ (Loader.start ctx lockTable) = r at hok hknows ⊢
  obtain ⟨l, e⟩ := r
  obtain rfl : e = none := hok
  have hknows : Knows (logDb F names) names l := hknows
  have hfound : ¬ (!(logDb F names).noKey && !(l.idOffset.isSome || l.keyOffset.isSome)) = true := by
    intro hmissing
    simp only [Bool.and_eq_true, Bool.not_eq_true', Bool.or_eq_false_iff, Option.isSome_eq_false_iff,
      Option.isNone_iff_eq_none] at hmissing
    have hno := hknows.keyOffset_eq_none.mp hmissing.2.2
    simp [logDb, hno] at hmissing
  simp only [Loader.start]
  rw [if_neg hfound]

/-! What a record writes down. -/

section Log

variable {l : Loader (List (List (Entry F))) Unit}

theorem setColumn_logDb (hrc : l.ctx.rc = none) (value : List (Entry F)) :
    setColumn (logDb F names) id () value l = l := by
  simp only [setColumn]
  split <;> exact if_pos hrc

theorem setAll_logDb (hrc : l.ctx.rc = none) (members : List (List UInt8 × Json F)) :
    setAll (logDb F names) id members l = l := by
  induction members with
  | nil => rfl
  | cons m members ih =>
    have hcolumn : (logDb F names).column m.1 = some () := rfl
    simp only [setAll, hcolumn, setColumn_logDb hrc, ite_self]
    exact ih

/-- Adding a record writes down its key, and that `--each` is executed. -/
theorem withRecord_logDb {key : Option (List (Entry F))} {f : ℕ → Loader _ Unit → Loader _ Unit}
    {gone : ℕ → ℕ} (hrc : l.ctx.rc = none) (hid : id ≠ 0 → key = none)
    (hf : ∀ id ctx, ctx.rc = none → f id { l with ctx := ctx } = { l with ctx := ctx }) :
    (withRecord (logDb F names) id key f gone l).2 =
      { l with ctx := ⟨l.ctx.db ++ (key.map valueAt).toList ++ [[]], none⟩ } := by
  have hadd : ∃ n, loaderAddRecord (logDb F names) id key l.ctx =
      (n + 1, ⟨l.ctx.db ++ (key.map valueAt).toList, none⟩) := by
    obtain ⟨⟨db, rc⟩, columns, status⟩ := l
    obtain rfl : rc = none := hrc
    cases id with
    | succ n =>
      obtain rfl := hid (Nat.succ_ne_zero n)
      exact ⟨n, by simp [loaderAddRecord, logDb]⟩
    | zero =>
      cases key with
      | none => exact ⟨0, by simp [loaderAddRecord, logDb]⟩
      | some key => exact ⟨0, by simp [loaderAddRecord, logDb]⟩
  obtain ⟨n, hadd⟩ := hadd
  have hset := hf (n + 1) ⟨l.ctx.db ++ (key.map valueAt).toList, none⟩ rfl
  simp only [withRecord, hadd]
  split_ifs with hlock hgone
  · exact congrArg (applyEach (logDb F names) (n + 1)) hset
  · exact absurd rfl hgone
  · exact congrArg (applyEach (logDb F names) (n + 1)) hset

/-- What a record writes down: its key, as the form finds it, and that `--each` is executed. -/
def written (names : List (List UInt8)) (keyOffset : Option ℕ) :
    Form → List (Json F) → List (List (Entry F))
  | .object, values => (keyOffset.bind fun k => values[k]?.map Json.flatten).toList ++ [[]]
  | .array, values =>
    if names = [] then []
    else (keyOffset.map fun k => valueAt ((flattenAll values).drop k)).toList ++ [[]]

theorem braceAddRecordInternal_logDb (h : Knows (logDb F names) names l) (hheader : IsHeader names)
    (hrc : l.ctx.rc = none) (hlen : values.length = names.length) :
    (braceAddRecordInternal (logDb F names) (Json.object (names.zip values)).flatten l).2 =
      { l with ctx := ⟨l.ctx.db ++ written names l.keyOffset .object values, none⟩ } := by
  have hset : ∀ id ctx, ctx.rc = none → braceSetValues (logDb F names) id
      (Json.object (names.zip values)).flatten { l with ctx := ctx } = { l with ctx := ctx } := by
    intro id ctx hctx
    rw [braceSetValues_eq]
    exact setAll_logDb hctx _
  cases hkey : l.keyOffset with
  | some k =>
    have hname := (h.keyOffset k).mp hkey
    have hnoKey : (logDb F names).noKey = false := by simp [logDb, List.mem_of_getElem? hname]
    obtain ⟨v, rest, hv, hbrace⟩ :=
      @braceAddRecordInternal_key F _ _ (logDb F names) l names values k hheader hlen hname hnoKey
    rw [hbrace, withRecord_logDb hrc (by simp) hset]
    simp [written, hv, hkey]
  | none =>
    have hnoName := h.keyOffset_eq_none.mp hkey
    cases hid : l.idOffset with
    | some k =>
      obtain ⟨v, -, hbrace⟩ := @braceAddRecordInternal_id F _ _ (logDb F names) l names values k
        hheader hlen ((h.idOffset k).mp hid)
      have hparse : parseIdValue (logDb F names) v.flatten l.ctx = (1, l.ctx) := rfl
      rw [hbrace, hparse, if_neg (by simp [hrc]), withRecord_logDb hrc (fun _ => rfl) hset]
      simp [written, hkey, hid]
    | none =>
      have hnoKey : (logDb F names).noKey = true := by simp [logDb, hnoName]
      rw [braceAddRecordInternal_none (h.idOffset_eq_none.mp hid) hnoName hnoKey,
        withRecord_logDb hrc (fun _ => rfl) hset]
      simp [written, hkey, hid]

theorem bracketAddRecordInternal_logDb (h : Knows (logDb F names) names l) (hheader : IsHeader names)
    (hrc : l.ctx.rc = none) (hlen : values.length = names.length) :
    (bracketAddRecordInternal (logDb F names) (Json.array values).flatten l).2 =
      { l with ctx := ⟨l.ctx.db ++ written names l.keyOffset .array values, none⟩ } := by
  by_cases hne : names = []
  · subst hne
    obtain rfl := List.length_eq_zero_iff.mp hlen
    simp only [bracketAddRecordInternal, grnLoaderBracketCount_array, written]
    simp [logDb, ← hrc]
  · cases hkey : l.keyOffset with
    | some k =>
      have hname := (h.keyOffset k).mp hkey
      have hid : l.idOffset = none := h.idOffset_eq_none.mpr fun hid =>
        hheader.identifier ⟨hid, List.mem_of_getElem? hname⟩
      have hset : ∀ id ctx, ctx.rc = none → bracketSetValues (logDb F names) id
          (Json.array values).flatten { l with ctx := ctx } = { l with ctx := ctx } := by
        intro id ctx hctx
        rw [(h.congr (sameHeader_ctx ctx)).bracketSetValues_eq hlen, braceSetValues_eq]
        exact setAll_logDb hctx _
      rw [h.bracketAddRecordInternal_eq hlen hne, hid]
      simp only [hkey]
      rw [withRecord_logDb hrc (by simp) hset]
      simp [written, hne, hkey, hid]
    | none =>
      -- without `_key` the two forms agree
      have hnoName := h.keyOffset_eq_none.mp hkey
      rw [h.bracket_eq_brace hheader keepsAdded_logDb (by simp [logDb, hnoName]) hlen hne
        (fun k _ hname => absurd (List.mem_of_getElem? hname) hnoName),
        braceAddRecordInternal_logDb h hheader hrc hlen, hkey]
      simp [written, hne]

/-- The end of a record: nothing more is written down. -/
theorem onRecordAdded_logDb {l' : Loader (List (List (Entry F))) Unit} {log : List (List (Entry F))}
    (hl' : l' = { l with ctx := ⟨log, none⟩ }) :
    SameHeader l { l'.onRecordAdded id with ctx := (l'.onRecordAdded id).ctx.clear } ∧
      (l'.onRecordAdded id).ctx.clear = ⟨log, none⟩ := by
  subst hl'
  refine ⟨(sameHeader_ctx _).trans (sameHeader_onRecordAdded.trans (sameHeader_ctx _)), ?_⟩
  simp only [Loader.onRecordAdded]
  split_ifs <;> rfl

/-- **What a load writes down.** -/
theorem load_logDb (hheader : IsHeader names) {records : List (Form × List (Json F))}
    (h : Knows (logDb F names) names l) (hset : l.columnsStatus = .set) (hrc : l.ctx.rc = none)
    (hlen : ∀ r ∈ records, r.2.length = names.length) :
    (load (logDb F names) (records.map fun r => element names r.1 r.2) l).ctx.db =
      l.ctx.db ++ records.flatMap fun r => written names l.keyOffset r.1 r.2 := by
  induction records generalizing l with
  | nil => simp [load]
  | cons r records ih =>
    obtain ⟨form, values⟩ := r
    have hone : SameHeader l (load (logDb F names) [element names form values] l) ∧
        (load (logDb F names) [element names form values] l).ctx =
          ⟨l.ctx.db ++ written names l.keyOffset form values, none⟩ := by
      have hvalues : values.length = names.length := hlen _ List.mem_cons_self
      cases form with
      | object => exact onRecordAdded_logDb (braceAddRecordInternal_logDb h hheader hrc hvalues)
      | array =>
        have hload : load (logDb F names) [element names .array values] l =
          bracketClose (logDb F names) (Json.array values).flatten l := rfl
        rw [hload, bracketClose, hset]
        exact onRecordAdded_logDb (bracketAddRecordInternal_logDb h hheader hrc hvalues)
    obtain ⟨hsame, hctx⟩ := hone
    rw [List.map_cons, load_cons, ih (h.congr hsame) (hsame.columnsStatus.trans hset) (by rw [hctx])
      (fun r hr => hlen r (List.mem_cons_of_mem _ hr)), hctx, hsame.keyOffset, List.flatMap_cons,
      List.append_assoc]

end Log

/-- Lists of parts with the same whole are the same, part by part, if none of the first is longer. -/
theorem eq_of_flatMap_eq {α β : Type} {xs : List α} {f g : α → List β}
    (hle : ∀ x ∈ xs, (f x).length ≤ (g x).length) (heq : xs.flatMap f = xs.flatMap g) :
    ∀ x ∈ xs, f x = g x := by
  have hsum : ∀ {ys : List α}, (∀ x ∈ ys, (f x).length ≤ (g x).length) →
      (ys.flatMap f).length ≤ (ys.flatMap g).length := by
    intro ys hys
    induction ys with
    | nil => simp
    | cons y ys ih =>
      have hy := hys y List.mem_cons_self
      have := ih fun x hx => hys x (List.mem_cons_of_mem _ hx)
      rw [List.flatMap_cons, List.flatMap_cons, List.length_append, List.length_append]
      omega
  induction xs with
  | nil => simp
  | cons x xs ih =>
    have hx := hle x List.mem_cons_self
    have hxs : ∀ y ∈ xs, (f y).length ≤ (g y).length := fun y hy => hle y (List.mem_cons_of_mem _ hy)
    have hrest := hsum hxs
    rw [List.flatMap_cons, List.flatMap_cons] at heq
    have hlength := congrArg List.length heq
    rw [List.length_append, List.length_append] at hlength
    obtain ⟨hhead, htail⟩ := List.append_inj heq (by omega)
    intro y hy
    rcases List.mem_cons.mp hy with rfl | hy
    · exact hhead
    · exact ih hxs htail y hy

/-- Both forms load the same only if each record in array form has its key in place. -/
theorem keyInPlace_of_sameEffect {records : List (Form × List (Json F))} (hheader : IsHeader names)
    (hlen : ∀ r ∈ records, r.2.length = names.length) (hsame : SameEffect names records) :
    ∀ r ∈ records, r.1 = .array → names ≠ [] ∧ KeyInPlace names r.2 := by
  -- the logs of the two loads are the same, record by record
  have hset := accepted_logDb hheader (⟨[], none⟩ : Ctx (List (List (Entry F)))) false
  have hload := hsame _ _ (logDb F names) ⟨[], none⟩ false keepsAdded_logDb hset
  obtain ⟨hknows, -⟩ := knows_of_accepted hheader.nodup hset
  rw [load_cons] at hload
  nth_rewrite 2 [load_cons] at hload
  generalize hl : load (logDb F names) [header names] (Loader.start ⟨[], none⟩ false) = l
    at hload hset hknows
  have hrc : l.ctx.rc = none := by rw [← hl]; rfl
  have hforms := load_logDb hheader hknows hset hrc hlen
  have hobjects := @load_logDb F names l hheader (records.map fun r => (Form.object, r.2)) hknows
    hset hrc (by rintro r hr; obtain ⟨r', hr', rfl⟩ := List.mem_map.mp hr; exact hlen r' hr')
  rw [List.map_map] at hobjects
  have hlog := hforms.symm.trans ((congrArg (·.ctx.db) hload).trans hobjects)
  rw [List.append_cancel_left_eq, List.flatMap_map] at hlog
  have hkey : ∀ {k : ℕ} {r : Form × List (Json F)}, r ∈ records → l.keyOffset = some k →
      ∃ v, r.2[k]? = some v := by
    intro k r hr hk
    obtain ⟨hlt, -⟩ := List.getElem?_eq_some_iff.mp ((hknows.keyOffset k).mp hk)
    exact ⟨_, List.getElem?_eq_getElem (by rw [hlen r hr]; exact hlt)⟩
  have hparts := eq_of_flatMap_eq ?_ hlog
  · rintro ⟨form, values⟩ hr rfl
    have hpart := hparts _ hr
    have hne : names ≠ [] := by
      rintro rfl
      simp [written] at hpart
    refine ⟨hne, fun k v hname hv => ?_⟩
    have hk := (hknows.keyOffset k).mpr hname
    simpa [written, hne, hk, hv] using hpart
  · rintro ⟨form, values⟩ hr
    cases form with
    | object => exact Nat.le_refl _
    | array =>
      simp only [written]
      split_ifs
      · simp
      · cases hk : l.keyOffset with
        | none => simp
        | some k =>
          obtain ⟨v, hv⟩ := hkey hr hk
          simp [hv]

/-- **When both forms load the same**: exactly when the header is not empty and each record in
array form has its key where the loader looks for it. -/
theorem sameEffect_iff {records : List (Form × List (Json F))} (hheader : IsHeader names)
    (hlen : ∀ r ∈ records, r.2.length = names.length) :
    SameEffect names records ↔
      ∀ r ∈ records, r.1 = .array → names ≠ [] ∧ KeyInPlace names r.2 := by
  refine ⟨keyInPlace_of_sameEffect hheader hlen, fun hplace σ C db ctx lockTable hkeeps hset => ?_⟩
  obtain ⟨hknows, hidentifier⟩ := knows_of_accepted hheader.nodup hset
  rw [load_cons]
  nth_rewrite 2 [load_cons]
  exact load_records_eq hheader hkeeps hidentifier hknows hset hlen hplace

/-- The column `tags` of the examples. -/
def nameTags : List UInt8 := [0x74, 0x61, 0x67, 0x73]

/-- The value `["a", "b"]`. -/
def tagsValue : Json Unit := .array [.scalar (.text [0x61]), .scalar (.text [0x62])]

/-- The value `"k"`. -/
def keyValue : Json Unit := .scalar (.text [0x6b])

theorem keyInPlace_first : KeyInPlace [nameKey, nameTags] [keyValue, tagsValue] := by
  have hne : nameTags ≠ nameKey := by decide
  intro k v hname hv
  cases k with
  | zero =>
    obtain rfl : keyValue = v := by simpa using hv
    simp [keyValue, flattenAll, Json.flatten, valueAt, Entry.size]
  | succ k => cases k <;> simp [hne] at hname

/-- With `_key` first the forms agree. -/
theorem sameEffect_key_first :
    SameEffect [nameKey, nameTags] [(.array, [keyValue, tagsValue]), (.object, [keyValue, tagsValue])] := by
  refine (sameEffect_iff ⟨by decide, by decide⟩ (by simp)).mpr ?_
  intro r hr _
  have hvalues : r.2 = [keyValue, tagsValue] := by
    simp only [List.mem_cons, List.not_mem_nil, or_false] at hr
    rcases hr with rfl | rfl <;> rfl
  rw [hvalues]
  exact ⟨by decide, keyInPlace_first⟩

/-- **The key behind an array**: under the header `["tags", "_key"]` the record
`[["a", "b"], "k"]` gets the key `a`, and as an object the key `k`. -/
theorem not_sameEffect_key_behind_array :
    ¬ SameEffect [nameTags, nameKey] [(.array, [tagsValue, keyValue])] := by
  intro hsame
  obtain ⟨-, hplace⟩ :=
    keyInPlace_of_sameEffect ⟨by decide, by decide⟩ (by simp) hsame _ List.mem_cons_self rfl
  have hkey := hplace 1 keyValue rfl rfl
  simp [tagsValue, keyValue, flattenAll, Json.flatten, valueAt, Entry.size] at hkey

end Groonga.Load
