import Groonga.Load.Simulation
import Groonga.Load.Escape

/-!
# The values that a text denotes

The reader leaves the entries of an array or object in the array of values, with its size,
when it closes it. Two things may go wrong, and nothing else: a number is converted to another
one or not at all, or a record does not fit in the `2 ^ 27` entries that `values_add` can
reach. Strings are decoded exactly, and what `grn_text_esc` writes is read back.
-/

namespace Groonga.Load

open Lib.JsonText

variable {F σ : Type} {env : Env F σ}

/-! ## Values of a tree -/

mutual

/-- The value of a tree, when numbers have these values. -/
def denoteValue (number : Number → Scalar F) : Value → Json F
  | .null => .scalar .void
  | .true => .scalar (.bool Bool.true)
  | .false => .scalar (.bool Bool.false)
  | .number n => .scalar (number n)
  | .string s => .scalar (.text (decodeString s))
  | .array _ items => .array (denoteItems number items)
  | .object _ members => .object (denoteMembers number members)

def denoteItems (number : Number → Scalar F) : Items → List (Json F)
  | .nil => []
  | .cons _ v _ items => denoteValue number v :: denoteItems number items

def denoteMembers (number : Number → Scalar F) : Members → List (List UInt8 × Json F)
  | .nil => []
  | .cons _ name _ _ v _ members =>
    (decodeString name, denoteValue number v) :: denoteMembers number members

end

mutual

/-- The entries of the arrays and objects of a value, in the order in which they are closed. -/
def Json.closings : Json F → List (List (Entry F))
  | .scalar _ => []
  | .array values => closingsAll values ++ [(Json.array values).flatten]
  | .object members => closingsMembers members ++ [(Json.object members).flatten]

def closingsAll : List (Json F) → List (List (Entry F))
  | [] => []
  | v :: values => v.closings ++ closingsAll values

def closingsMembers : List (List UInt8 × Json F) → List (List (Entry F))
  | [] => []
  | (_, v) :: members => v.closings ++ closingsMembers members

end

/-! ## Room in the array of values -/

/-- What holds of the array of values, wherever `values_size` has wrapped around. -/
structure Store.Ok (st : Store F σ) : Prop where
  valuesSize_lt : st.valuesSize < 2 ^ 32
  length_le : st.values.length ≤ 2 ^ 27
  le_length : min st.valuesSize (2 ^ 27) ≤ st.values.length

theorem Store.place_eq (st : Store F σ) :
    st.place = min (st.valuesSize % 2 ^ 27) st.values.length := by
  unfold Store.place
  congr 1
  omega

/-- The same array, or one that is longer by an entry. -/
theorem Store.length_add (e : Entry F) (st : Store F σ) :
    (st.add e).values.length =
      if st.place < st.values.length then st.values.length else st.values.length + 1 := by
  unfold Store.add
  split_ifs <;> simp

/-- The array of values while values are read: some entries and some closed arrays and
objects more. -/
structure Follows (st st' : Store F σ) (size count : ℕ) : Prop where
  ok : st'.Ok
  length_le : st.values.length ≤ st'.values.length
  valuesSize_eq : st'.valuesSize = (st.valuesSize + size) % 2 ^ 32
  closed : ∃ evs, st'.closed = st.closed ++ evs ∧ evs.length = count ∧ ∀ ev ∈ evs, ev.1 ≠ 0

theorem Follows.trans {st st' st'' : Store F σ} {size count size' count' : ℕ}
    (h : Follows st st' size count) (h' : Follows st' st'' size' count') :
    Follows st st'' (size + size') (count + count') := by
  obtain ⟨evs, hclosed, hlength, hdepth⟩ := h.closed
  obtain ⟨evs', hclosed', hlength', hdepth'⟩ := h'.closed
  refine ⟨h'.ok, Nat.le_trans h.length_le h'.length_le, ?_, evs ++ evs', ?_, ?_, ?_⟩
  · rw [h'.valuesSize_eq, h.valuesSize_eq]
    omega
  · rw [hclosed', hclosed, List.append_assoc]
  · rw [List.length_append, hlength, hlength']
  · intro ev hev
    rcases List.mem_append.mp hev with hev | hev
    · exact hdepth ev hev
    · exact hdepth' ev hev

theorem Follows.refl {st : Store F σ} (h : st.Ok) : Follows st st 0 0 :=
  ⟨h, Nat.le_refl _, (Nat.mod_eq_of_lt h.valuesSize_lt).symm, [], by simp, rfl, by simp⟩

theorem follows_add {st : Store F σ} (h : st.Ok) (e : Entry F) : Follows st (st.add e) 1 0 := by
  obtain ⟨hlt, hmax, hmin⟩ := h
  have hplace := st.place_eq
  have hlen := st.length_add e
  have hsize : (st.add e).valuesSize = (st.valuesSize + 1) % 2 ^ 32 := rfl
  refine ⟨⟨?_, ?_, ?_⟩, ?_, rfl, [], by simp [Store.add], rfl, by simp⟩
  · rw [hsize]
    exact Nat.mod_lt _ (by decide)
  · rw [hlen]
    split_ifs <;> omega
  · rw [hlen, hsize]
    split_ifs <;> omega
  · rw [hlen]
    split_ifs <;> omega

theorem follows_open {st : Store F σ} (h : st.Ok) (kind : Kind) :
    Follows st (st.openContainer kind) 1 0 := by
  have hok : { st with level := st.valuesSize :: st.level }.Ok := ⟨h.1, h.2, h.3⟩
  have hadd := follows_add hok (kind.entry 0)
  exact ⟨hadd.ok, hadd.length_le, hadd.valuesSize_eq, hadd.closed⟩

/-- The array of values when an array or object is closed that began at `start`. -/
def Store.patched (st : Store F σ) (start : ℕ) : List (Entry F) :=
  st.values.modify start (Entry.setSize ((st.valuesSize + 2 ^ 32 - start - 1) % 2 ^ 32))

@[simp] theorem Store.length_patched (st : Store F σ) (start : ℕ) :
    (st.patched start).length = st.values.length := by
  simp [Store.patched]

theorem Store.close_of_deep {st : Store F σ} {kind : Kind} {start : ℕ} {level : List ℕ}
    (hlevel : st.level = start :: level) (hdeep : env.emitLevel < level.length) :
    st.close env kind = { st with
      values := st.patched start
      level := level
      closed := st.closed ++ [(level.length, (st.patched start).drop start)] } := by
  simp only [Store.close, hlevel, if_pos hdeep, Store.patched]

theorem Store.close_of_emit {st : Store F σ} {kind : Kind} {start : ℕ} {level : List ℕ}
    (hlevel : st.level = start :: level) (hemit : ¬ env.emitLevel < level.length) :
    st.close env kind = { st with
      values := st.patched start
      valuesSize := start
      level := level
      loader := env.close kind level.length ((st.patched start).drop start) st.loader
      closed := st.closed ++ [(level.length, (st.patched start).drop start)] } := by
  simp only [Store.close, hlevel, if_neg hemit, Store.patched]

/-- An array or object inside a record. -/
theorem follows_container {st st' : Store F σ} {kind : Kind} {size count : ℕ} (h : st.Ok)
    (hdeep : env.emitLevel < st.level.length) (hlevel : st'.level = st.valuesSize :: st.level)
    (hinside : Follows (st.openContainer kind) st' size count) :
    Follows st (st'.close env kind) (size + 1) (count + 1) := by
  obtain ⟨hok, hlength, hsize, evs, hclosed, hcount, hdepth⟩ := (follows_open h kind).trans hinside
  rw [Store.close_of_deep hlevel hdeep]
  refine ⟨⟨hok.1, ?_, ?_⟩, ?_, ?_,
    evs ++ [(st.level.length, (st'.patched st.valuesSize).drop st.valuesSize)], ?_, ?_, ?_⟩
  · simpa using hok.2
  · simpa using hok.3
  · simpa using hlength
  · simp only [hsize]
    omega
  · simp only [hclosed, List.append_assoc]
  · simp only [List.length_append, hcount, List.length_singleton]
    omega
  · intro ev hev
    rcases List.mem_append.mp hev with hev | hev
    · exact hdepth ev hev
    · rw [List.mem_singleton.mp hev]
      exact Nat.ne_of_gt (Nat.lt_of_le_of_lt (Nat.zero_le _) hdeep)

/-- A record: its entries do not count any more, and those from its own on are not more than
there is room for. -/
theorem follows_record {st st' : Store F σ} {kind : Kind} {size count : ℕ} (h : st.Ok)
    (hemit : env.emitLevel = 1) (hone : st.level.length = 1)
    (hlevel : st'.level = st.valuesSize :: st.level)
    (hinside : Follows (st.openContainer kind) st' size count) :
    Follows st (st'.close env kind) 0 (count + 1) ∧
      ∃ evs ptr, (st'.close env kind).closed = st.closed ++ evs ++ [(1, ptr)] ∧
        evs.length = count ∧ ptr.length ≤ 2 ^ 27 - st.valuesSize := by
  obtain ⟨hok, hlength, hsize, evs, hclosed, hcount, hdepth⟩ := (follows_open h kind).trans hinside
  have hmin := h.3
  have hmax := hok.2
  rw [Store.close_of_emit hlevel (by omega)]
  refine ⟨⟨⟨h.1, ?_, ?_⟩, ?_, ?_,
    evs ++ [(st.level.length, (st'.patched st.valuesSize).drop st.valuesSize)], ?_, ?_, ?_⟩,
    evs, (st'.patched st.valuesSize).drop st.valuesSize, ?_, ?_, ?_⟩
  · simpa using hmax
  · simp only [Store.length_patched]
    omega
  · simpa using hlength
  · exact (Nat.mod_eq_of_lt h.1).symm
  · simp only [hclosed, List.append_assoc]
  · simp only [List.length_append, hcount, List.length_singleton]
    omega
  · intro ev hev
    rcases List.mem_append.mp hev with hev | hev
    · exact hdepth ev hev
    · rw [List.mem_singleton.mp hev]
      simp only [hone]
      exact Nat.one_ne_zero
  · simp only [hclosed, hone]
  · omega
  · rw [List.length_drop, Store.length_patched]
    omega

mutual

/-- **Values inside a record**, whether there is room or not. -/
theorem follows_value {st : Store F σ} (number : Number → Scalar F) (v : Value) (h : st.Ok)
    (hdeep : env.emitLevel < st.level.length) :
    Follows st (execValue env v st) (denoteValue number v).flatten.length
      (denoteValue number v).closings.length := by
  cases v with
  | null => exact follows_add h _
  | true => exact follows_add h _
  | false => exact follows_add h _
  | number n => exact follows_add h _
  | string s => exact follows_add h _
  | array inside items =>
    have hitems := follows_items number items (follows_open h .bracket).ok
      (Nat.lt_succ_of_lt hdeep)
    have hcontainer := follows_container h hdeep (level_execItems items _) hitems
    simpa [denoteValue, execValue, Json.flatten, Json.closings] using hcontainer
  | object inside members =>
    have hmembers := follows_members number members (follows_open h .brace).ok
      (Nat.lt_succ_of_lt hdeep)
    have hcontainer := follows_container h hdeep (level_execMembers members _) hmembers
    simpa [denoteValue, execValue, Json.flatten, Json.closings] using hcontainer

theorem follows_items {st : Store F σ} (number : Number → Scalar F) (items : Items) (h : st.Ok)
    (hdeep : env.emitLevel < st.level.length) :
    Follows st (execItems env items st) (flattenAll (denoteItems number items)).length
      (closingsAll (denoteItems number items)).length := by
  cases items with
  | nil =>
    simp only [execItems, denoteItems, flattenAll_nil, closingsAll]
    exact .refl h
  | cons before v after items =>
    have hv := follows_value number v h hdeep
    have hitems := follows_items number items hv.ok (by rw [level_execValue]; exact hdeep)
    simpa [execItems, denoteItems, flattenAll, closingsAll] using hv.trans hitems

theorem follows_members {st : Store F σ} (number : Number → Scalar F) (members : Members) (h : st.Ok)
    (hdeep : env.emitLevel < st.level.length) :
    Follows st (execMembers env members st) (flattenMembers (denoteMembers number members)).length
      (closingsMembers (denoteMembers number members)).length := by
  cases members with
  | nil =>
    simp only [execMembers, denoteMembers, flattenMembers_nil, closingsMembers]
    exact .refl h
  | cons before name behind inner v after members =>
    have hname : Follows st (addText name st) 1 0 := follows_add h _
    have hv := follows_value number v hname.ok hdeep
    have hmembers := follows_members number members hv.ok (by rw [level_execValue]; exact hdeep)
    have hall := (hname.trans hv).trans hmembers
    rw [Nat.zero_add] at hall
    simp only [execMembers, denoteMembers, flattenMembers_cons, closingsMembers, List.length_cons,
      List.length_append]
    rw [show (denoteValue number v).flatten.length +
      (flattenMembers (denoteMembers number members)).length + 1 =
      1 + (denoteValue number v).flatten.length +
        (flattenMembers (denoteMembers number members)).length by omega]
    exact hall

end

/-! ## Records for which there is room -/

/-- The entries `es` are behind those that counted before, and `cs` was seen at the closed
arrays and objects. -/
structure Holds (st st' : Store F σ) (es : List (Entry F)) (cs : List (List (Entry F))) : Prop where
  values : st'.values.take (st.valuesSize + es.length) = st.values.take st.valuesSize ++ es
  closed : st'.closed.map (fun ev => valueAt ev.2) = st.closed.map (fun ev => valueAt ev.2) ++ cs

theorem Holds.refl (st : Store F σ) : Holds st st [] [] := ⟨by simp, by simp⟩

theorem Holds.trans {st st' st'' : Store F σ} {es es' : List (Entry F)}
    {cs cs' : List (List (Entry F))} (h : Holds st st' es cs) (h' : Holds st' st'' es' cs')
    (hsize : st'.valuesSize = st.valuesSize + es.length) :
    Holds st st'' (es ++ es') (cs ++ cs') := by
  refine ⟨?_, ?_⟩
  · have hvalues := h'.values
    rw [hsize, h.values, Nat.add_assoc, ← List.length_append] at hvalues
    rw [hvalues, List.append_assoc]
  · rw [h'.closed, h.closed, List.append_assoc]

/-- `values_size` has not wrapped around. -/
theorem Follows.valuesSize_of_le {st st' : Store F σ} {size count : ℕ}
    (h : Follows st st' size count) (hroom : st.valuesSize + size ≤ 2 ^ 27) :
    st'.valuesSize = st.valuesSize + size := by
  rw [h.valuesSize_eq]
  exact Nat.mod_eq_of_lt (by omega)

theorem holds_add {st : Store F σ} (h : st.Ok) (e : Entry F) (hroom : st.valuesSize + 1 ≤ 2 ^ 27) :
    Holds st (st.add e) [e] [] := by
  have hmin := h.3
  have hplace : st.place = st.valuesSize := by
    rw [st.place_eq]
    omega
  refine ⟨?_, by simp [Store.add]⟩
  simp only [Store.add, hplace, List.length_singleton]
  split_ifs with hlt
  · rw [List.take_add_one, List.getElem?_set_self hlt, List.take_set,
      List.set_eq_of_length_le (by rw [List.length_take]; omega)]
    rfl
  · have hlen : st.valuesSize = st.values.length := by omega
    rw [hlen, List.take_length, ← List.length_singleton (a := e), ← List.length_append, List.take_length]

theorem modify_append {α : Type} {pre : List α} {k : ℕ} (hk : pre.length = k) (a : α)
    (rest : List α) (f : α → α) : (pre ++ a :: rest).modify k f = pre ++ f a :: rest := by
  subst hk
  induction pre with
  | nil => rfl
  | cons x pre ih => simp [List.modify_succ_cons, ih]

/-- The size of an array or object is set. -/
theorem Holds.patched {st st' : Store F σ} {kind : Kind} {es : List (Entry F)}
    {cs : List (List (Entry F))} (h : st.Ok) (hinside : Holds st st' (kind.entry 0 :: es) cs)
    (hsize : st'.valuesSize = st.valuesSize + (es.length + 1))
    (hroom : st.valuesSize + (es.length + 1) ≤ 2 ^ 27) :
    ∃ rest, st'.patched st.valuesSize =
      st.values.take st.valuesSize ++ (kind.entry es.length :: es ++ rest) := by
  have hmin := h.3
  have hlength : (st.values.take st.valuesSize).length = st.valuesSize := by
    rw [List.length_take]
    omega
  have hcount : (st'.valuesSize + 2 ^ 32 - st.valuesSize - 1) % 2 ^ 32 = es.length := by
    omega
  have hentry : Entry.setSize es.length (kind.entry 0 : Entry F) = kind.entry es.length := by
    cases kind <;> rfl
  refine ⟨st'.values.drop (st.valuesSize + (kind.entry 0 :: es).length), ?_⟩
  have hvalues := List.take_append_drop (st.valuesSize + (kind.entry 0 :: es).length) st'.values
  rw [hinside.values, List.append_assoc, List.cons_append] at hvalues
  rw [Store.patched, hcount]
  generalize st'.values.drop _ = rest at hvalues ⊢
  rw [← hvalues]
  rw [modify_append hlength, hentry]
  rfl

/-- An array or object that is closed, in a record or as one. -/
theorem holds_container {st st' : Store F σ} {kind : Kind} {es : List (Entry F)}
    {cs : List (List (Entry F))} {count : ℕ} (h : st.Ok)
    (hlevel : st'.level = st.valuesSize :: st.level)
    (hfollows : Follows (st.openContainer kind) st' es.length count)
    (hinside : Holds (st.openContainer kind) st' es cs)
    (hroom : st.valuesSize + (es.length + 1) ≤ 2 ^ 27) :
    Holds st (st'.close env kind) (kind.entry es.length :: es)
      (cs ++ [kind.entry es.length :: es]) := by
  have hok : { st with level := st.valuesSize :: st.level }.Ok := ⟨h.1, h.2, h.3⟩
  have hopen : Holds st (st.openContainer kind) [kind.entry 0] [] := by
    have hadd := holds_add hok (kind.entry 0) (by simp only; omega)
    exact ⟨hadd.values, hadd.closed⟩
  have hone := (follows_open h kind).valuesSize_of_le (by omega)
  have hall : Holds st st' (kind.entry 0 :: es) cs := hopen.trans hinside hone
  have hsize : st'.valuesSize = st.valuesSize + (es.length + 1) := by
    rw [((follows_open h kind).trans hfollows).valuesSize_of_le (by omega)]
    omega
  obtain ⟨rest, hpatched⟩ := hall.patched h hsize hroom
  have hmin := h.3
  have hlength : (st.values.take st.valuesSize).length = st.valuesSize := by
    rw [List.length_take]
    omega
  have hptr : (st'.patched st.valuesSize).drop st.valuesSize = kind.entry es.length :: es ++ rest := by
    rw [hpatched]
    nth_rewrite 1 [← hlength]
    exact List.drop_left
  have hat : valueAt (kind.entry es.length :: es ++ rest) = kind.entry es.length :: es := by
    cases kind <;> simp [Kind.entry, valueAt, Entry.size]
  have hvalues : (st'.close env kind).values = st'.patched st.valuesSize ∧
      (st'.close env kind).closed =
        st'.closed ++ [(st.level.length, (st'.patched st.valuesSize).drop st.valuesSize)] := by
    by_cases hdeep : env.emitLevel < st.level.length
    · rw [Store.close_of_deep hlevel hdeep]
      exact ⟨rfl, rfl⟩
    · rw [Store.close_of_emit hlevel hdeep]
      exact ⟨rfl, rfl⟩
  refine ⟨?_, ?_⟩
  · rw [hvalues.1, hpatched, ← List.append_assoc]
    refine List.take_left' ?_
    rw [List.length_append, hlength]
  · rw [hvalues.2, List.map_append, hall.closed, List.map_singleton, hptr, hat,
      List.append_assoc]

/-- The value that the reader finds for a number. -/
def readNumber (strtod : Strtod F) (n : Number) : Scalar F := convertNumber strtod n.bytes

mutual

/-- **Values inside a record** for which there is room. -/
theorem holds_value {st : Store F σ} (v : Value) (h : st.Ok) (hdeep : env.emitLevel < st.level.length)
    (hroom : st.valuesSize + (denoteValue (readNumber env.strtod) v).flatten.length ≤ 2 ^ 27) :
    Holds st (execValue env v st) (denoteValue (readNumber env.strtod) v).flatten
      (denoteValue (readNumber env.strtod) v).closings := by
  cases v with
  | null => exact holds_add h _ hroom
  | true => exact holds_add h _ hroom
  | false => exact holds_add h _ hroom
  | number n => exact holds_add h _ hroom
  | string s => exact holds_add h _ hroom
  | array inside items =>
    simp only [denoteValue, Json.flatten, List.length_cons] at hroom
    have hone := (follows_open h .bracket).valuesSize_of_le (by omega)
    have hitems := holds_items items (follows_open h .bracket).ok (Nat.lt_succ_of_lt hdeep)
      (by rw [hone]; omega)
    have hfollows := @follows_items F σ env _ (readNumber env.strtod) items
      (follows_open h .bracket).ok (Nat.lt_succ_of_lt hdeep)
    have hcontainer := @holds_container F σ env _ _ _ _ _ _ h (level_execItems items _) hfollows hitems
      hroom
    simpa only [denoteValue, execValue, Json.flatten, Json.closings, Kind.entry] using hcontainer
  | object inside members =>
    simp only [denoteValue, Json.flatten, List.length_cons] at hroom
    have hone := (follows_open h .brace).valuesSize_of_le (by omega)
    have hmembers := holds_members members (follows_open h .brace).ok (Nat.lt_succ_of_lt hdeep)
      (by rw [hone]; omega)
    have hfollows := @follows_members F σ env _ (readNumber env.strtod) members
      (follows_open h .brace).ok (Nat.lt_succ_of_lt hdeep)
    have hcontainer := @holds_container F σ env _ _ _ _ _ _ h (level_execMembers members _) hfollows
      hmembers hroom
    simpa only [denoteValue, execValue, Json.flatten, Json.closings, Kind.entry] using hcontainer

theorem holds_items {st : Store F σ} (items : Items) (h : st.Ok)
    (hdeep : env.emitLevel < st.level.length)
    (hroom : st.valuesSize +
      (flattenAll (denoteItems (readNumber env.strtod) items)).length ≤ 2 ^ 27) :
    Holds st (execItems env items st) (flattenAll (denoteItems (readNumber env.strtod) items))
      (closingsAll (denoteItems (readNumber env.strtod) items)) := by
  cases items with
  | nil =>
    simp only [execItems, denoteItems, flattenAll_nil, closingsAll]
    exact .refl st
  | cons before v after items =>
    simp only [denoteItems, flattenAll_cons, List.length_append] at hroom
    have hfollows := @follows_value F σ env st (readNumber env.strtod) v h hdeep
    have hsize := hfollows.valuesSize_of_le (by omega)
    have hv := holds_value v h hdeep (by omega)
    have hitems := holds_items items hfollows.ok (by rw [level_execValue]; exact hdeep)
      (by rw [hsize]; omega)
    simp only [execItems, denoteItems, flattenAll_cons, closingsAll]
    exact hv.trans hitems hsize

theorem holds_members {st : Store F σ} (members : Members) (h : st.Ok)
    (hdeep : env.emitLevel < st.level.length)
    (hroom : st.valuesSize +
      (flattenMembers (denoteMembers (readNumber env.strtod) members)).length ≤ 2 ^ 27) :
    Holds st (execMembers env members st)
      (flattenMembers (denoteMembers (readNumber env.strtod) members))
      (closingsMembers (denoteMembers (readNumber env.strtod) members)) := by
  cases members with
  | nil =>
    simp only [execMembers, denoteMembers, flattenMembers_nil, closingsMembers]
    exact .refl st
  | cons before name behind inner v after members =>
    simp only [denoteMembers, flattenMembers_cons, List.length_cons, List.length_append] at hroom
    have hname : Follows st (addText name st) 1 0 := follows_add h _
    have hnameSize := hname.valuesSize_of_le (by omega)
    have hfollows := @follows_value F σ env (addText name st) (readNumber env.strtod) v hname.ok hdeep
    have hsize := hfollows.valuesSize_of_le (by omega)
    have hadd : Holds st (addText name st) [.scalar (.text (decodeString name))] [] :=
      holds_add h _ (by omega)
    have hv := holds_value v hname.ok hdeep (by omega)
    have hmembers := holds_members members hfollows.ok (by rw [level_execValue]; exact hdeep)
      (by rw [hsize]; omega)
    simp only [execMembers, denoteMembers, flattenMembers_cons, closingsMembers]
    exact hadd.trans (hv.trans hmembers hsize) hnameSize

end

/-! ## Numbers -/

mutual

/-- The numbers of a value. -/
def valueNumbers : Value → List Number
  | .number n => [n]
  | .array _ items => itemsNumbers items
  | .object _ members => membersNumbers members
  | _ => []

def itemsNumbers : Items → List Number
  | .nil => []
  | .cons _ v _ items => valueNumbers v ++ itemsNumbers items

def membersNumbers : Members → List Number
  | .nil => []
  | .cons _ _ _ _ v _ members => valueNumbers v ++ membersNumbers members

end

section Congr

variable {f g : Number → Scalar F}

mutual

/-- Only the numbers of a value matter. -/
theorem denoteValue_congr {v : Value} (h : ∀ n ∈ valueNumbers v, f n = g n) :
    denoteValue f v = denoteValue g v := by
  cases v with
  | null => rfl
  | true => rfl
  | false => rfl
  | number n => rw [denoteValue, denoteValue, h n (by simp [valueNumbers])]
  | string s => rfl
  | array inside items =>
    rw [denoteValue, denoteValue, denoteItems_congr (by simpa [valueNumbers] using h)]
  | object inside members =>
    rw [denoteValue, denoteValue, denoteMembers_congr (by simpa [valueNumbers] using h)]

theorem denoteItems_congr {items : Items} (h : ∀ n ∈ itemsNumbers items, f n = g n) :
    denoteItems f items = denoteItems g items := by
  cases items with
  | nil => rfl
  | cons before v after items =>
    rw [itemsNumbers, List.forall_mem_append] at h
    rw [denoteItems, denoteItems, denoteValue_congr h.1, denoteItems_congr h.2]

theorem denoteMembers_congr {members : Members} (h : ∀ n ∈ membersNumbers members, f n = g n) :
    denoteMembers f members = denoteMembers g members := by
  cases members with
  | nil => rfl
  | cons before name behind inner v after members =>
    rw [membersNumbers, List.forall_mem_append] at h
    rw [denoteMembers, denoteMembers, denoteValue_congr h.1, denoteMembers_congr h.2]

end

mutual

/-- The number of entries does not depend on the values of numbers. -/
theorem length_flatten_denoteValue (v : Value) :
    (denoteValue f v).flatten.length = (denoteValue g v).flatten.length := by
  cases v with
  | null => rfl
  | true => rfl
  | false => rfl
  | number n => rfl
  | string s => rfl
  | array inside items =>
    simp only [denoteValue, Json.flatten, List.length_cons, length_flattenAll_denoteItems items]
  | object inside members =>
    simp only [denoteValue, Json.flatten, List.length_cons, length_flattenMembers_denoteMembers members]

theorem length_flattenAll_denoteItems (items : Items) :
    (flattenAll (denoteItems f items)).length = (flattenAll (denoteItems g items)).length := by
  cases items with
  | nil => rfl
  | cons before v after items =>
    simp only [denoteItems, flattenAll_cons, List.length_append, length_flatten_denoteValue v,
      length_flattenAll_denoteItems items]

theorem length_flattenMembers_denoteMembers (members : Members) :
    (flattenMembers (denoteMembers f members)).length =
      (flattenMembers (denoteMembers g members)).length := by
  cases members with
  | nil => rfl
  | cons before name behind inner v after members =>
    simp only [denoteMembers, flattenMembers_cons, List.length_cons, List.length_append,
      length_flatten_denoteValue v, length_flattenMembers_denoteMembers members]

end

mutual

/-- The entries of a value tell the values of its numbers. -/
theorem eq_of_flatten_eq {v : Value} (h : (denoteValue f v).flatten = (denoteValue g v).flatten) :
    ∀ n ∈ valueNumbers v, f n = g n := by
  cases v with
  | null => simp [valueNumbers]
  | true => simp [valueNumbers]
  | false => simp [valueNumbers]
  | number n =>
    simp only [denoteValue, Json.flatten, List.cons.injEq, Entry.scalar.injEq, and_true] at h
    simpa [valueNumbers] using h
  | string s => simp [valueNumbers]
  | array inside items =>
    simp only [denoteValue, Json.flatten, List.cons.injEq] at h
    rw [valueNumbers]
    exact eq_of_flattenAll_eq h.2
  | object inside members =>
    simp only [denoteValue, Json.flatten, List.cons.injEq] at h
    rw [valueNumbers]
    exact eq_of_flattenMembers_eq h.2

theorem eq_of_flattenAll_eq {items : Items}
    (h : flattenAll (denoteItems f items) = flattenAll (denoteItems g items)) :
    ∀ n ∈ itemsNumbers items, f n = g n := by
  cases items with
  | nil => simp [itemsNumbers]
  | cons before v after items =>
    simp only [denoteItems, flattenAll_cons] at h
    obtain ⟨hv, hitems⟩ := List.append_inj h (length_flatten_denoteValue v)
    rw [itemsNumbers, List.forall_mem_append]
    exact ⟨eq_of_flatten_eq hv, eq_of_flattenAll_eq hitems⟩

theorem eq_of_flattenMembers_eq {members : Members}
    (h : flattenMembers (denoteMembers f members) = flattenMembers (denoteMembers g members)) :
    ∀ n ∈ membersNumbers members, f n = g n := by
  cases members with
  | nil => simp [membersNumbers]
  | cons before name behind inner v after members =>
    simp only [denoteMembers, flattenMembers_cons, List.cons.injEq, true_and] at h
    obtain ⟨hv, hmembers⟩ := List.append_inj h (length_flatten_denoteValue v)
    rw [membersNumbers, List.forall_mem_append]
    exact ⟨eq_of_flatten_eq hv, eq_of_flattenMembers_eq hmembers⟩

end

end Congr

/-! ## Records -/

/-- What is seen at the closed arrays and objects. -/
def seen (evs : List (ℕ × List (Entry F))) : List (List (Entry F)) := evs.map fun ev => valueAt ev.2

theorem length_valueAt_le (ptr : List (Entry F)) : (valueAt ptr).length ≤ ptr.length := by
  cases ptr with
  | nil => exact Nat.le_refl _
  | cons e values =>
    rw [valueAt, List.length_cons, List.length_cons, List.length_take]
    omega

/-- A record that begins at `n` is read as it is: there is room for it, and its numbers are
converted. -/
def RecordOk (strtod : Strtod F) (n : ℕ) (v : Value) : Prop :=
  v.IsContainer → n + (denoteValue (denoteNumber strtod) v).flatten.length ≤ 2 ^ 27 ∧
    ∀ num ∈ valueNumbers v, Converts strtod num

/-- `values_size` behind a value of the root: a record does not count any more. -/
def sizeBehind (n : ℕ) : Value → ℕ
  | .array _ _ => n
  | .object _ _ => n
  | _ => (n + 1) % 2 ^ 32

/-- What a value of the root does. -/
structure RootValue (env : Env F σ) (v : Value) (st st' : Store F σ)
    (evs : List (ℕ × List (Entry F))) : Prop where
  ok : st'.Ok
  valuesSize_eq : st'.valuesSize = sizeBehind st.valuesSize v
  closed : st'.closed = st.closed ++ evs
  depth : ∀ ev ∈ evs, ev.1 ≠ 0
  length : evs.length = (denoteValue (denoteNumber env.strtod) v).closings.length
  seen_iff : seen evs = (denoteValue (denoteNumber env.strtod) v).closings ↔
    RecordOk env.strtod st.valuesSize v

/-- An array or object of the root. -/
theorem rootValue_container {v : Value} {kind : Kind} {st st' : Store F σ}
    {inner : (Number → Scalar F) → List (Entry F)}
    {cs : (Number → Scalar F) → List (List (Entry F))}
    (hstrtod : ∀ n : Number, env.strtod.read n.bytes = n.bytes.length) (hemit : env.emitLevel = 1)
    (h : st.Ok) (hone : st.level.length = 1) (hcontainer : v.IsContainer)
    (hbehind : sizeBehind st.valuesSize v = st.valuesSize)
    (hlevel : st'.level = st.valuesSize :: st.level)
    (hflatten : ∀ f, (denoteValue f v).flatten = kind.entry (inner f).length :: inner f)
    (hclosings : ∀ f, (denoteValue f v).closings = cs f ++ [(denoteValue f v).flatten])
    (hfollows : ∀ f, Follows (st.openContainer kind) st' (inner f).length (cs f).length)
    (hholds : st.valuesSize + ((inner (readNumber env.strtod)).length + 1) ≤ 2 ^ 27 →
      Holds (st.openContainer kind) st' (inner (readNumber env.strtod))
        (cs (readNumber env.strtod))) :
    ∃ evs, RootValue env v st (st'.close env kind) evs := by
  obtain ⟨hrecord, evs₀, ptr, hclosed, hcount, hptr⟩ :=
    follows_record h hemit hone hlevel (hfollows (denoteNumber env.strtod))
  obtain ⟨evs, hclosed', hlength, hdepth⟩ := hrecord.closed
  obtain rfl : evs = evs₀ ++ [(1, ptr)] := by
    rw [hclosed', List.append_assoc] at hclosed
    exact List.append_cancel_left hclosed
  -- what is seen if there is room
  have hroom : st.valuesSize + (denoteValue (denoteNumber env.strtod) v).flatten.length ≤ 2 ^ 27 →
      seen (evs₀ ++ [(1, ptr)]) = (denoteValue (readNumber env.strtod) v).closings := by
    intro hle
    rw [@length_flatten_denoteValue _ _ (readNumber env.strtod), hflatten, List.length_cons] at hle
    have hclose := (@holds_container F σ env _ _ _ _ _ _ h hlevel (hfollows _) (hholds hle) hle).closed
    rw [hclosed', List.map_append] at hclose
    rw [hclosings, hflatten]
    exact List.append_cancel_left hclose
  refine ⟨evs₀ ++ [(1, ptr)], hrecord.ok, ?_, hclosed', hdepth, ?_, fun hseen _ => ?_, fun hok => ?_⟩
  · rw [hrecord.valuesSize_eq, hbehind, Nat.add_zero]
    exact Nat.mod_eq_of_lt h.1
  · rw [hlength, hclosings, List.length_append]
    rfl
  · -- the entries of the record are not more than there is room for
    have hlast : valueAt ptr = (denoteValue (denoteNumber env.strtod) v).flatten := by
      rw [seen, List.map_append, hclosings] at hseen
      exact List.singleton_inj.mp (List.append_inj hseen (by rw [List.length_map, hcount])).2
    have hpos : 0 < (denoteValue (denoteNumber env.strtod) v).flatten.length :=
      Json.length_flatten_pos _
    have hle := length_valueAt_le ptr
    rw [hlast] at hle
    have hfit : st.valuesSize + (denoteValue (denoteNumber env.strtod) v).flatten.length ≤ 2 ^ 27 := by
      omega
    refine ⟨hfit, fun num hnum => ?_⟩
    have hsame := (hroom hfit).symm.trans hseen
    rw [hclosings, hclosings] at hsame
    have hnumbers := eq_of_flatten_eq
      (List.singleton_inj.mp (List.append_inj' hsame rfl).2) num hnum
    exact (convertNumber_eq_iff (hstrtod num)).mp hnumbers
  · obtain ⟨hfit, hnumbers⟩ := hok hcontainer
    have hsame : denoteValue (readNumber env.strtod) v = denoteValue (denoteNumber env.strtod) v :=
      denoteValue_congr fun num hnum => (convertNumber_eq_iff (hstrtod num)).mpr (hnumbers num hnum)
    rw [hroom hfit, hsame]

/-- A scalar of the root: nothing is closed. -/
theorem rootValue_scalar {v : Value} {st : Store F σ} {e : Entry F} (h : st.Ok)
    (hbehind : sizeBehind st.valuesSize v = (st.valuesSize + 1) % 2 ^ 32)
    (hcontainer : ¬ v.IsContainer)
    (hclosings : (denoteValue (denoteNumber env.strtod) v).closings = []) :
    ∃ evs, RootValue env v st (st.add e) evs := by
  refine ⟨[], (follows_add h e).ok, ?_, ?_, by simp, by rw [hclosings]; rfl, ?_⟩
  · rw [hbehind]
    rfl
  · simp [Store.add]
  · rw [hclosings]
    exact iff_of_true rfl fun hv => absurd hv hcontainer

theorem rootValue {v : Value} {st : Store F σ}
    (hstrtod : ∀ n : Number, env.strtod.read n.bytes = n.bytes.length) (hemit : env.emitLevel = 1)
    (h : st.Ok) (hone : st.level.length = 1) :
    ∃ evs, RootValue env v st (execValue env v st) evs := by
  cases v with
  | null => exact rootValue_scalar h rfl id rfl
  | true => exact rootValue_scalar h rfl id rfl
  | false => exact rootValue_scalar h rfl id rfl
  | number n => exact rootValue_scalar h rfl id rfl
  | string s => exact rootValue_scalar h rfl id rfl
  | array inside items =>
    have hopen := follows_open h .bracket
    have hdeep : env.emitLevel < (st.openContainer .bracket).level.length := by
      simp [Store.openContainer, hemit, hone]
    rw [execValue]
    refine rootValue_container hstrtod hemit h hone trivial rfl (level_execItems items _)
      (fun f => by rw [denoteValue, Json.flatten]; rfl) (fun f => by rw [denoteValue, Json.closings])
      (fun f => follows_items f items hopen.ok hdeep) fun hroom => ?_
    refine holds_items items hopen.ok hdeep ?_
    rw [hopen.valuesSize_of_le (by omega)]
    omega
  | object inside members =>
    have hopen := follows_open h .brace
    have hdeep : env.emitLevel < (st.openContainer .brace).level.length := by
      simp [Store.openContainer, hemit, hone]
    rw [execValue]
    refine rootValue_container hstrtod hemit h hone trivial rfl (level_execMembers members _)
      (fun f => by rw [denoteValue, Json.flatten]; rfl) (fun f => by rw [denoteValue, Json.closings])
      (fun f => follows_members f members hopen.ok hdeep) fun hroom => ?_
    refine holds_members members hopen.ok hdeep ?_
    rw [hopen.valuesSize_of_le (by omega)]
    omega

/-! ## Texts -/

/-- The records of the root array, the first one at `n` or behind. -/
def ItemsOk (strtod : Strtod F) : ℕ → Items → Prop
  | _, .nil => True
  | n, .cons _ v _ items => RecordOk strtod n v ∧ ItemsOk strtod (sizeBehind n v) items

/-- The records of the root object: names count. -/
def MembersOk (strtod : Strtod F) : ℕ → Members → Prop
  | _, .nil => True
  | n, .cons _ _ _ _ v _ members =>
    RecordOk strtod ((n + 1) % 2 ^ 32) v ∧ MembersOk strtod (sizeBehind ((n + 1) % 2 ^ 32) v) members

/-- **The condition** on a text: every record of the root fits in the array of values, and all
its numbers are converted. -/
def ReadsRight (strtod : Strtod F) (d : Document) : Prop :=
  match d.root with
  | .array _ items => ItemsOk strtod 1 items
  | .object _ members => MembersOk strtod 1 members
  | _ => True

/-- What is to be seen when the arrays and objects inside the root are closed. -/
def expected (strtod : Strtod F) (d : Document) : List (List (Entry F)) :=
  match d.root with
  | .array _ items => closingsAll (denoteItems (denoteNumber strtod) items)
  | .object _ members => closingsMembers (denoteMembers (denoteNumber strtod) members)
  | _ => []

/-- **The reader builds the denoted values**: whenever an array or object inside the root is
closed, its entry and those that belong to it are the entries of the value it denotes. -/
def BuildsDenoted (env : Env F σ) (loader : σ) (d : Document) : Prop :=
  seen ((jsonRead env d.text (Reader.start loader)).store.closed.filter (·.1 ≠ 0)) =
    expected env.strtod d

/-- Two parts of what is seen, of known lengths. -/
theorem seen_append_iff {evs evs' : List (ℕ × List (Entry F))} {cs cs' : List (List (Entry F))}
    (h : evs.length = cs.length) : seen (evs ++ evs') = cs ++ cs' ↔ seen evs = cs ∧ seen evs' = cs' := by
  rw [seen, List.map_append]
  refine ⟨fun heq => List.append_inj heq (by rw [seen, List.length_map, h]), ?_⟩
  rintro ⟨rfl, rfl⟩
  rfl

theorem seen_items_iff {st : Store F σ} (items : Items)
    (hstrtod : ∀ n : Number, env.strtod.read n.bytes = n.bytes.length) (hemit : env.emitLevel = 1)
    (h : st.Ok) (hone : st.level.length = 1) :
    ∃ evs, (execItems env items st).closed = st.closed ++ evs ∧ (∀ ev ∈ evs, ev.1 ≠ 0) ∧
      (seen evs = closingsAll (denoteItems (denoteNumber env.strtod) items) ↔
        ItemsOk env.strtod st.valuesSize items) := by
  cases items with
  | nil => exact ⟨[], by simp [execItems], by simp, by simp [seen, denoteItems, closingsAll, ItemsOk]⟩
  | cons before v after items =>
    obtain ⟨evs, hv⟩ := @rootValue F σ env v st hstrtod hemit h hone
    obtain ⟨evs', hclosed, hdepth, hiff⟩ := seen_items_iff items hstrtod hemit hv.ok
      (by rw [level_execValue]; exact hone)
    refine ⟨evs ++ evs', ?_, List.forall_mem_append.mpr ⟨hv.depth, hdepth⟩, ?_⟩
    · rw [execItems, hclosed, hv.closed, List.append_assoc]
    · rw [denoteItems, closingsAll, seen_append_iff hv.length, hv.seen_iff, hiff, ItemsOk,
        hv.valuesSize_eq]

theorem seen_members_iff {st : Store F σ} (members : Members)
    (hstrtod : ∀ n : Number, env.strtod.read n.bytes = n.bytes.length) (hemit : env.emitLevel = 1)
    (h : st.Ok) (hone : st.level.length = 1) :
    ∃ evs, (execMembers env members st).closed = st.closed ++ evs ∧ (∀ ev ∈ evs, ev.1 ≠ 0) ∧
      (seen evs = closingsMembers (denoteMembers (denoteNumber env.strtod) members) ↔
        MembersOk env.strtod st.valuesSize members) := by
  cases members with
  | nil =>
    exact ⟨[], by simp [execMembers], by simp, by simp [seen, denoteMembers, closingsMembers, MembersOk]⟩
  | cons before name behind inner v after members =>
    have hname : Follows st (addText name st) 1 0 := follows_add h _
    obtain ⟨evs, hv⟩ := @rootValue F σ env v (addText name st) hstrtod hemit hname.ok hone
    obtain ⟨evs', hclosed, hdepth, hiff⟩ := seen_members_iff members hstrtod hemit hv.ok
      (by rw [level_execValue]; exact hone)
    refine ⟨evs ++ evs', ?_, List.forall_mem_append.mpr ⟨hv.depth, hdepth⟩, ?_⟩
    · rw [execMembers, hclosed, hv.closed, List.append_assoc]
      rfl
    · rw [denoteMembers, closingsMembers, seen_append_iff hv.length, hv.seen_iff, hiff, MembersOk,
        hv.valuesSize_eq, hname.valuesSize_eq]

/-- The array of values in front of the root's own values. -/
theorem ok_open_root (loader : σ) (kind : Kind) :
    ((Reader.start loader : Reader F σ).store.openContainer kind).Ok :=
  (follows_open ⟨by simp [Reader.start], by simp [Reader.start], by simp [Reader.start]⟩ kind).ok

/-- The closing of the root is the last one. -/
theorem filter_closed_root {st : Store F σ} {kind : Kind} {evs : List (ℕ × List (Entry F))}
    (hlevel : st.level = [0]) (hclosed : st.closed = evs) (hdepth : ∀ ev ∈ evs, ev.1 ≠ 0) :
    (st.close env kind).closed.filter (·.1 ≠ 0) = evs := by
  have hlast : (st.close env kind).closed = evs ++ [(0, (st.patched 0).drop 0)] := by
    rw [Store.close_of_emit hlevel (Nat.not_lt_zero _), hclosed]
    rfl
  rw [hlast, List.filter_append, List.filter_eq_self.mpr (by simpa using hdepth)]
  simp

/-- **When the reader builds the denoted values.** -/
theorem buildsDenoted_document (d : Document) (loader : σ)
    (hstrtod : ∀ n : Number, env.strtod.read n.bytes = n.bytes.length) (hemit : env.emitLevel = 1)
    (hnever : ∀ s, env.cancelled s = false) :
    BuildsDenoted env loader d ↔ ReadsRight env.strtod d := by
  obtain ⟨r', hpath, -, hstore⟩ := @path_document F σ env d loader
  have hread : jsonRead env d.text (Reader.start loader) = r' := hpath.jsonRead_eq
  rw [BuildsDenoted, hread, hstore hnever]
  obtain ⟨before, root, after, hcontainer⟩ := d
  cases root with
  | array inside items =>
    obtain ⟨evs, hclosed, hdepth, hiff⟩ := seen_items_iff items hstrtod hemit
      (@ok_open_root F σ loader .bracket) rfl
    have hfilter := @filter_closed_root F σ env _ .bracket evs (level_execItems items _) hclosed hdepth
    simp only [execValue, hfilter, expected, ReadsRight]
    exact hiff
  | object inside members =>
    obtain ⟨evs, hclosed, hdepth, hiff⟩ := seen_members_iff members hstrtod hemit
      (@ok_open_root F σ loader .brace) rfl
    have hfilter := @filter_closed_root F σ env _ .brace evs (level_execMembers members _) hclosed hdepth
    simp only [execValue, hfilter, expected, ReadsRight]
    exact hiff
  | null => exact hcontainer.elim
  | true => exact hcontainer.elim
  | false => exact hcontainer.elim
  | number n => exact hcontainer.elim
  | string s => exact hcontainer.elim

/-- **The reader builds the denoted values, exactly when the text meets the condition**; and
every string that `grn_text_esc` writes denotes the text it was given. -/
theorem buildsDenoted_iff
    (hstrtod : ∀ n : Number, env.strtod.read n.bytes = n.bytes.length) (hemit : env.emitLevel = 1)
    (hnever : ∀ s, env.cancelled s = false) :
    (∀ (d : Document) (loader : σ), BuildsDenoted env loader d ↔ ReadsRight env.strtod d) ∧
      ∀ s : List Char, ∃ t : List StringChar,
        grnTextEsc (s.flatMap String.utf8EncodeChar) = (stringChars t).flatten ∧
          decodeString t = s.flatMap String.utf8EncodeChar :=
  ⟨fun d loader => buildsDenoted_document d loader hstrtod hemit hnever, grnTextEsc_denotes⟩

/-- The number 1.5, or -1.5. -/
def oneAndHalf (negative : Bool) : Number := Number.oneAndHalf negative

/-- The text `[[1.5]]`, or `[[-1.5]]`. -/
def halfText (negative : Bool) : Document where
  before := []
  root := .array [] (.cons [] (.array [] (.cons [] (.number (oneAndHalf negative)) [] .nil)) [] .nil)
  after := []
  isContainer := trivial

/-- A loader that does nothing; the floats are the bits of a `double`. -/
def doubleEnv : Env UInt64 Unit where
  emitLevel := 1
  strtod :=
    { value := fun str =>
        if str = [0x31, 0x2e, 0x35] then 0x3ff8000000000000
        else if str = [0x2d, 0x31, 0x2e, 0x35] then 0xbff8000000000000
        else 0
      read := List.length
      errno := fun _ => false }
  close := fun _ _ _ _ => ()
  invalid := fun _ _ => ()
  cancelled := fun _ => false

theorem buildsDenoted_half : BuildsDenoted doubleEnv () (halfText false) := by
  refine ((buildsDenoted_iff (fun _ => rfl) rfl fun _ => rfl).1 (halfText false) ()).mpr ⟨fun _ => ?_, trivial⟩
  refine ⟨by decide, fun num hnum => .inr ?_⟩
  obtain rfl : num = oneAndHalf false := by simpa [valueNumbers, itemsNumbers] using hnum
  exact ⟨rfl, rfl, fun hint => absurd hint (by decide)⟩

/-- **A negative number that is not an integer** stays a text: `[[-1.5]]`. -/
theorem not_buildsDenoted_negative_half : ¬ BuildsDenoted doubleEnv () (halfText true) := by
  rw [buildsDenoted_document (halfText true) () (fun _ => rfl) rfl fun _ => rfl]
  rintro ⟨hrecord, -⟩
  rcases (hrecord trivial).2 (oneAndHalf true) (by simp [valueNumbers, itemsNumbers]) with
    ⟨hint, -⟩ | ⟨hneg, -⟩
  · exact absurd hint (by decide)
  · exact absurd hneg (by decide)

end Groonga.Load
