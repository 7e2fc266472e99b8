import Groonga.Load.Reader
import Groonga.Load.Record

/-!
# The entries that a record reads

The functions that make a record walk through the array of values with pointers. What they read is
given here by positions: of the array or object of the record, of its values, and of what these have
inside. A pointer behind the last entry is read like any other.

What the tables and columns of the database answer is a parameter, `Answers`: for every value whose
column there is, and whether it can be cast, and for every object whether it has a record. The
messages of errors are left out, and what is read for them.
-/

namespace Groonga.Load

variable {F : Type}

/-! ## Positions -/

/-- `GRN_UINT32_VALUE` of an array or object. -/
def sizeAt (values : List (Entry F)) (p : ℕ) : ℕ := (values[p]?.map Entry.size).getD 0

/-- `values_next`, and the `value_end` of an array or object. -/
def nextAt (values : List (Entry F)) (p : ℕ) : ℕ := p + 1 + sizeAt values p

/-- The text at a position. -/
def textAt (values : List (Entry F)) (p : ℕ) : Option (List UInt8) := textOf (values.drop p)

/-- The loop over the values of an array. -/
def headsLoop (values : List (Entry F)) (stop : ℕ) : ℕ → ℕ → List ℕ
  | 0, _ => []
  | fuel + 1, value =>
    if value < stop then value :: headsLoop values stop fuel (nextAt values value) else []

/-- The values of an array or object. -/
def heads (values : List (Entry F)) (p : ℕ) : List ℕ :=
  headsLoop values (nextAt values p) (sizeAt values p) (p + 1)

/-- The loop over the members of an object: a name, and the value that `behind` finds. -/
def pairsLoop (values : List (Entry F)) (behind : ℕ → ℕ) (stop : ℕ) : ℕ → ℕ → List (ℕ × ℕ)
  | 0, _ => []
  | fuel + 1, name =>
    if name < stop then
      (name, behind name) :: pairsLoop values behind stop fuel (nextAt values (behind name))
    else []

/-- The members of an object, as the loops with `values_next` find them. -/
def pairs (values : List (Entry F)) (p : ℕ) : List (ℕ × ℕ) :=
  pairsLoop values (nextAt values) (nextAt values p) (sizeAt values p) (p + 1)

/-- The members of an object, as `grn_loader_brace_set_values` finds them. -/
def members (values : List (Entry F)) (p : ℕ) : List (ℕ × ℕ) :=
  pairsLoop values (· + 1) (nextAt values p) (sizeAt values p) (p + 1)

/-! ## The database -/

/-- The range of a column. -/
inductive Range where
  | table
  | text
  | fixed
deriving DecidableEq, Repr

/-- What a column is. -/
structure Column where
  weightVector : Bool
  vector : Bool
  range : Range
deriving DecidableEq, Repr

/-- What the loader has, and what the database answers for the entry at a position. -/
structure Answers where
  /-- `loader->table` -/
  table : Bool
  columnsStatus : ColumnsStatus
  nColumns : ℕ
  idOffset : Option ℕ
  keyOffset : Option ℕ
  /-- the table of the object is `GRN_TABLE_NO_KEY` -/
  noKey : ℕ → Bool
  /-- the column of the value -/
  column : ℕ → Option Column
  /-- the array or object has a record -/
  found : ℕ → Bool
  /-- the value is an error that ends the loop over the values -/
  fails : ℕ → Bool

/-! ## Values of columns -/

/-- A loop over values: each is read, and `visit` tells what else is, and whether the loop goes
on. -/
def visitAll (visit : ℕ → List ℕ × Bool) : List ℕ → List ℕ
  | [] => []
  | p :: ps => p :: (visit p).1 ++ if (visit p).2 then visitAll visit ps else []

/-- `grn_loader_brace_add_weight_vector_element`, its loop. -/
def weightReads (a : Answers) : List (ℕ × ℕ) → List ℕ
  | [] => []
  | (key, value) :: ps => key :: value :: if a.fails value then [] else weightReads a ps

/-- `grn_loader_bracket_set_value`, for the kinds of vectors. `sub` makes the record of an
object. -/
def bracketSetValueReads (values : List (Entry F)) (a : Answers) (sub : ℕ → List ℕ × Bool)
    (column : Column) (value : ℕ) : List ℕ :=
  if column.vector then
    match column.range with
    | .table =>
      visitAll (fun e => match values[e]? with
        | some (.openBrace _) => sub e
        | some (.openBracket _) => ([], false)
        | _ => ([], !a.fails e)) (heads values value)
    | .text =>
      visitAll (fun e => match values[e]? with
        | some (.openBrace _) => (weightReads a (pairs values e), !a.fails e)
        | some (.openBracket _) => ([], false)
        | _ => ([], true)) (heads values value)
    | .fixed =>
      visitAll (fun e => match values[e]? with
        | some (.openBrace _) => ([], false)
        | some (.openBracket _) => ([], false)
        | _ => ([], true)) (heads values value)
  else []

/-- `grn_loader_brace_set_value`. -/
def braceSetValueReads (values : List (Entry F)) (a : Answers) (sub : ℕ → List ℕ × Bool)
    (column : Column) (value : ℕ) : List ℕ :=
  if column.weightVector then weightReads a (pairs values value)
  else if column.range = .table ∧ column.vector = false then (sub value).1
  else []

/-- What is read to set a column. -/
def setValueReads (values : List (Entry F)) (a : Answers) (sub : ℕ → List ℕ × Bool)
    (column : Column) (value : ℕ) : List ℕ :=
  value :: match values[value]? with
    | some (.openBracket _) => bracketSetValueReads values a sub column value
    | some (.openBrace _) => braceSetValueReads values a sub column value
    | _ => []

/-! ## Objects -/

/-- The scan of `grn_loader_brace_add_record_internal`: what it reads, and the positions of the
values of `_id` and `_key`, if it ends without an error. -/
def scanReads (values : List (Entry F)) (noKey : Bool) :
    List (ℕ × ℕ) → Option ℕ → Option ℕ → List ℕ × Option (Option ℕ × Option ℕ)
  | [], id, key => ([], some (id, key))
  | (name, value) :: ps, id, key =>
    match textAt values name with
    | none => ([name], none)
    | some text =>
      if text = nameId then
        if id.isSome ∨ key.isSome then ([name], none)
        else
          (name :: value :: (scanReads values noKey ps (some value) key).1,
            (scanReads values noKey ps (some value) key).2)
      else if text = nameKey then
        if noKey ∨ id.isSome ∨ key.isSome then ([name], none)
        else
          (name :: value :: (scanReads values noKey ps id (some value)).1,
            (scanReads values noKey ps id (some value)).2)
      else
        (name :: value :: (scanReads values noKey ps id key).1,
          (scanReads values noKey ps id key).2)

/-- The loop of `grn_loader_brace_set_values`. -/
def braceSetValuesReads (values : List (Entry F)) (a : Answers) (sub : ℕ → List ℕ × Bool) :
    List (ℕ × ℕ) → List ℕ
  | [] => []
  | (name, value) :: ps =>
    name :: value ::
      (if textAt values name = some nameId ∨ textAt values name = some nameKey then []
      else
        match a.column value with
        | none => []
        | some column => setValueReads values a sub column value) ++
      braceSetValuesReads values a sub ps

/-- The value that tells which record it is. -/
def identifierReads (id key : Option ℕ) : List ℕ :=
  match id with
  | some value => [value]
  | none => key.toList

/-- `grn_loader_brace_add_record_internal`: what is read, and whether there is a record. The objects
inside stand behind this one, so that the length of the array is fuel enough. -/
def braceAddRecordReads (values : List (Entry F)) (a : Answers) : ℕ → ℕ → List ℕ × Bool
  | 0, _ => ([], false)
  | fuel + 1, p =>
    match scanReads values (a.noKey p) (pairs values p) none none with
    | (reads, none) => (p :: reads, false)
    | (reads, some (id, key)) =>
      if a.noKey p = false ∧ id = none ∧ key = none then (p :: reads, false)
      else if a.found p then
        (p :: reads ++ identifierReads id key ++
          braceSetValuesReads values a (braceAddRecordReads values a fuel) (members values p), true)
      else (p :: reads ++ identifierReads id key, false)

/-! ## Arrays -/

/-- `grn_loader_bracket_set_columns`. -/
def bracketSetColumnsReads (values : List (Entry F)) (a : Answers) (p : ℕ) : List ℕ :=
  p :: visitAll (fun e => ([], (textAt values e).isSome && !a.fails e)) (heads values p)

/-- The loop of `grn_loader_bracket_set_values`, from the column `i` on. -/
def bracketSetValuesReads (values : List (Entry F)) (a : Answers) (sub : ℕ → List ℕ × Bool) :
    ℕ → ℕ → List ℕ → List ℕ
  | 0, _, _ => []
  | _ + 1, _, [] => []
  | nColumns + 1, i, value :: rest =>
    value ::
      (if some i = a.idOffset ∨ some i = a.keyOffset then []
      else
        match a.column value with
        | none => []
        | some column => setValueReads values a sub column value) ++
      bracketSetValuesReads values a sub nColumns (i + 1) rest

/-- The value that tells which record an array is: that of `_id` is looked for, that of `_key` is
`key_offset` entries behind the first one. -/
def bracketIdentifierReads (values : List (Entry F)) (a : Answers) (p : ℕ) : List ℕ :=
  match a.idOffset with
  | some i => (heads values p).take (i + 1)
  | none => a.keyOffset.toList.map (p + 1 + ·)

/-- `grn_loader_bracket_add_record_internal`. -/
def bracketAddRecordReads (values : List (Entry F)) (a : Answers) (p : ℕ) : List ℕ :=
  p :: heads values p ++
    if heads values p = [] ∨ (heads values p).length ≠ a.nColumns then []
    else
      bracketIdentifierReads values a p ++
        if a.found p then
          bracketSetValuesReads values a
            (braceAddRecordReads values a (values.length + 1)) a.nColumns 0
            (heads values p)
        else []

/-- What `bracket_close` and `brace_close` read when they make a record at a depth. -/
def closeReads (values : List (Entry F)) (a : Answers) (kind : Kind) (depth p : ℕ) : List ℕ :=
  match kind with
  | .bracket =>
    if depth = 0 ∨ a.table = false ∨ a.columnsStatus = .broken then [p]
    else if a.columnsStatus = .unset then bracketSetColumnsReads values a p
    else bracketAddRecordReads values a p
  | .brace => if a.table then p :: (braceAddRecordReads values a (values.length + 1) p).1 else [p]

/-! ## Walking -/

variable {values : List (Entry F)} {a : Answers} {p q stop n b : ℕ}

/-- `values_next` leads from one position to another. -/
inductive Reaches (values : List (Entry F)) : ℕ → ℕ → Prop
  | refl (p : ℕ) : Reaches values p p
  | step {p q : ℕ} (hlt : p < q) (h : Reaches values (nextAt values p) q) : Reaches values p q

theorem lt_nextAt (values : List (Entry F)) (p : ℕ) : p < nextAt values p :=
  Nat.lt_of_lt_of_le (Nat.lt_succ_self p) (Nat.le_add_right _ _)

theorem Reaches.le (h : Reaches values p q) : p ≤ q := by
  cases h with
  | refl => exact Nat.le_refl _
  | step hlt _ => exact Nat.le_of_lt hlt

theorem Reaches.next (h : Reaches values p q) (hlt : p < q) :
    Reaches values (nextAt values p) q := by
  cases h with
  | refl => exact absurd hlt (Nat.lt_irrefl _)
  | step _ h => exact h

theorem Reaches.trans (h : Reaches values p q) (h' : Reaches values q n) : Reaches values p n := by
  induction h with
  | refl => exact h'
  | step hlt _ ih => exact .step (Nat.lt_of_lt_of_le hlt h'.le) (ih h')

/-- The values are read before the end. -/
theorem lt_of_mem_headsLoop {fuel : ℕ} (h : q ∈ headsLoop values stop fuel p) :
    p ≤ q ∧ q < stop := by
  induction fuel generalizing p with
  | zero => cases h
  | succ fuel ih =>
    rw [headsLoop] at h
    by_cases hlt : p < stop
    · rw [if_pos hlt] at h
      rcases List.mem_cons.mp h with rfl | h
      · exact ⟨Nat.le_refl _, hlt⟩
      · exact ⟨Nat.le_trans (Nat.le_of_lt (lt_nextAt values p)) (ih h).1, (ih h).2⟩
    · rw [if_neg hlt] at h
      cases h

theorem lt_of_mem_heads (h : q ∈ heads values p) : p < q ∧ q < nextAt values p :=
  lt_of_mem_headsLoop h

/-- The members of an object when the walk ends where the object does: the names are inside, and the
value of the last one only if the number of the values is even. -/
theorem le_of_mem_pairsLoop {fuel name value : ℕ} (hreach : Reaches values p stop)
    (h : (name, value) ∈ pairsLoop values (nextAt values) stop fuel p) :
    p ≤ name ∧ name < stop ∧ p < value ∧ value ≤ stop := by
  induction fuel generalizing p with
  | zero => cases h
  | succ fuel ih =>
    rw [pairsLoop] at h
    by_cases hlt : p < stop
    · rw [if_pos hlt] at h
      have hreach' := hreach.next hlt
      have hnext := lt_nextAt values p
      rcases List.mem_cons.mp h with heq | h
      · obtain ⟨rfl, rfl⟩ := Prod.mk.inj heq
        exact ⟨Nat.le_refl _, hlt, hnext, hreach'.le⟩
      · by_cases hlt' : nextAt values p < stop
        · obtain ⟨h₁, h₂, h₃, h₄⟩ := ih (hreach'.next hlt') h
          have := lt_nextAt values (nextAt values p)
          exact ⟨by omega, h₂, by omega, h₄⟩
        · -- the value is the end, so that the loop is over
          have hover : ¬ nextAt values (nextAt values p) < stop := by
            have := lt_nextAt values (nextAt values p)
            omega
          cases fuel with
          | zero => cases h
          | succ fuel =>
            rw [pairsLoop, if_neg hover] at h
            cases h
    · rw [if_neg hlt] at h
      cases h

theorem lt_of_mem_pairsLoop {fuel k name value : ℕ} (hreach : Reaches values p stop)
    (hk : stop ≤ p + k) (heven : (headsLoop values stop k p).length % 2 = 0)
    (h : (name, value) ∈ pairsLoop values (nextAt values) stop fuel p) : value < stop := by
  induction fuel generalizing p k with
  | zero => cases h
  | succ fuel ih =>
    rw [pairsLoop] at h
    by_cases hlt : p < stop
    · have hnext := lt_nextAt values p
      have hnext' := lt_nextAt values (nextAt values p)
      obtain ⟨k, rfl⟩ : ∃ m, k = m + 1 := ⟨k - 1, by omega⟩
      rw [headsLoop, if_pos hlt, List.length_cons] at heven
      -- there is a second value
      have hlt' : nextAt values p < stop := by
        by_contra hover
        cases k with
        | zero =>
          rw [headsLoop] at heven
          exact absurd heven (by decide)
        | succ k =>
          rw [headsLoop, if_neg hover] at heven
          exact absurd heven (by decide)
      obtain ⟨k, rfl⟩ : ∃ m, k = m + 1 := ⟨k - 1, by omega⟩
      rw [headsLoop, if_pos hlt', List.length_cons] at heven
      rw [if_pos hlt] at h
      rcases List.mem_cons.mp h with heq | h
      · obtain ⟨rfl, rfl⟩ := Prod.mk.inj heq
        exact hlt'
      · exact @ih _ k ((hreach.next hlt).next hlt') (by omega) (by omega) h
    · rw [if_neg hlt] at h
      cases h

/-! ## Fuel -/

theorem visitAll_congr {visit visit' : ℕ → List ℕ × Bool} {ps : List ℕ}
    (h : ∀ p ∈ ps, visit p = visit' p) : visitAll visit ps = visitAll visit' ps := by
  induction ps with
  | nil => rfl
  | cons p ps ih =>
    rw [visitAll, visitAll, h p List.mem_cons_self, ih fun q hq => h q (List.mem_cons_of_mem _ hq)]

/-- To set a column only the records of objects behind the value, or its own, are made. -/
theorem setValueReads_congr {sub sub' : ℕ → List ℕ × Bool} (column : Column)
    (h : ∀ e, p ≤ e → sub e = sub' e) :
    setValueReads values a sub column p = setValueReads values a sub' column p := by
  have hheads : ∀ e ∈ heads values p, sub e = sub' e := fun e he =>
    h e (Nat.le_of_lt (lt_of_mem_heads he).1)
  have hbracket : bracketSetValueReads values a sub column p =
      bracketSetValueReads values a sub' column p := by
    rw [bracketSetValueReads, bracketSetValueReads]
    cases column.range with
    | table =>
      have := visitAll_congr fun e he => show (match values[e]? with
          | some (.openBrace _) => sub e
          | some (.openBracket _) => ([], false)
          | _ => ([], !a.fails e)) = (match values[e]? with
          | some (.openBrace _) => sub' e
          | some (.openBracket _) => ([], false)
          | _ => ([], !a.fails e)) by rw [hheads e he]
      rw [this]
    | text => rfl
    | fixed => rfl
  have hbrace : braceSetValueReads values a sub column p =
      braceSetValueReads values a sub' column p := by
    rw [braceSetValueReads, braceSetValueReads, h p (Nat.le_refl p)]
  rw [setValueReads, setValueReads, hbracket, hbrace]

/-- The values of members are behind the object. -/
theorem lt_of_mem_members {x : ℕ × ℕ} (h : x ∈ members values p) : p < x.2 := by
  have hloop : ∀ stop fuel q, x ∈ pairsLoop values (· + 1) stop fuel q → q < x.2 := by
    intro stop fuel
    induction fuel with
    | zero => exact fun q hx => nomatch hx
    | succ fuel ih =>
      intro q hx
      rw [pairsLoop] at hx
      by_cases hlt : q < stop
      · rw [if_pos hlt] at hx
        rcases List.mem_cons.mp hx with rfl | hx
        · exact Nat.lt_succ_self q
        · have := ih _ hx
          have := lt_nextAt values (q + 1)
          omega
      · rw [if_neg hlt] at hx
        cases hx
  exact Nat.lt_of_succ_lt (hloop _ _ _ h)

theorem braceSetValuesReads_congr {sub sub' : ℕ → List ℕ × Bool} {ps : List (ℕ × ℕ)}
    (hps : ∀ x ∈ ps, p < x.2) (h : ∀ e, p < e → sub e = sub' e) :
    braceSetValuesReads values a sub ps = braceSetValuesReads values a sub' ps := by
  induction ps with
  | nil => rfl
  | cons x ps ih =>
    obtain ⟨name, value⟩ := x
    rw [braceSetValuesReads, braceSetValuesReads,
      ih fun x hx => hps x (List.mem_cons_of_mem _ hx)]
    cases a.column value with
    | none => rfl
    | some column =>
      simp only
      rw [setValueReads_congr column fun e he =>
        h e (Nat.lt_of_lt_of_le (hps _ List.mem_cons_self) he)]

/-- **The length of the array is fuel enough**: with more fuel the same is read. -/
theorem braceAddRecordReads_fuel {fuel : ℕ} (h : values.length < fuel + p) (hfuel : 0 < fuel) :
    braceAddRecordReads values a (fuel + 1) p = braceAddRecordReads values a fuel p := by
  induction fuel generalizing p with
  | zero => cases hfuel
  | succ fuel ih =>
    have hsub : braceSetValuesReads values a (braceAddRecordReads values a (fuel + 1))
        (members values p) =
        braceSetValuesReads values a (braceAddRecordReads values a fuel) (members values p) := by
      by_cases hp : values.length ≤ p
      · -- there is no entry
        have hsize : sizeAt values p = 0 := by
          rw [sizeAt, List.getElem?_eq_none hp]
          rfl
        rw [members, hsize]
        rfl
      · exact braceSetValuesReads_congr (fun x hx => lt_of_mem_members hx)
          fun e he => ih (by omega) (by omega)
    rw [braceAddRecordReads, hsub]
    rfl

/-! ## Records that stay inside -/

/-- **The entries from one position to another** are arrays, objects and scalars, all of whose
values are inside, and an object that ends with the last entry has an even number of values. -/
structure Inside (values : List (Entry F)) (b n : ℕ) : Prop where
  reaches : ∀ p, b ≤ p → p < n → Reaches values (p + 1) (nextAt values p) ∧ nextAt values p ≤ n
  even : ∀ p size, b ≤ p → values[p]? = some (.openBrace size) → nextAt values p = n →
    (heads values p).length % 2 = 0

namespace Inside

variable (h : Inside values b n)
include h

/-- The members of an object that has members. -/
theorem lt_of_mem_pairs {size name value : ℕ} (hp : values[p]? = some (.openBrace size))
    (hb : b ≤ p)
    (hn : p < n) (hmem : (name, value) ∈ pairs values p) :
    b ≤ name ∧ name < n ∧ b ≤ value ∧ value < n := by
  obtain ⟨hreach, hle⟩ := h.reaches p hb hn
  obtain ⟨h₁, h₂, h₃, h₄⟩ := le_of_mem_pairsLoop hreach hmem
  refine ⟨by omega, by omega, by omega, ?_⟩
  by_cases heq : nextAt values p = n
  · have heven := h.even p size hb hp heq
    have hstop : nextAt values p ≤ p + 1 + sizeAt values p := Nat.le_refl _
    have := lt_of_mem_pairsLoop hreach hstop heven hmem
    omega
  · omega

theorem lt_of_mem_heads (hb : b ≤ p) (hn : p < n) (hmem : q ∈ heads values p) : b ≤ q ∧ q < n := by
  obtain ⟨h₁, h₂⟩ := Load.lt_of_mem_heads hmem
  exact ⟨by omega, Nat.lt_of_lt_of_le h₂ (h.reaches p hb hn).2⟩

end Inside

/-- Nothing that is read is at or behind `n`. -/
def Below (n : ℕ) (reads : List ℕ) : Prop := ∀ q ∈ reads, q < n

theorem Below.nil : Below n [] := fun _ h => nomatch h

theorem Below.cons {reads : List ℕ} (hp : p < n) (h : Below n reads) : Below n (p :: reads) := by
  intro q hq
  rcases List.mem_cons.mp hq with rfl | hq
  · exact hp
  · exact h q hq

theorem Below.append {reads reads' : List ℕ} (h : Below n reads) (h' : Below n reads') :
    Below n (reads ++ reads') := by
  intro q hq
  rcases List.mem_append.mp hq with hq | hq
  · exact h q hq
  · exact h' q hq

theorem below_visitAll {visit : ℕ → List ℕ × Bool} {ps : List ℕ}
    (h : ∀ p ∈ ps, p < n ∧ Below n (visit p).1) : Below n (visitAll visit ps) := by
  induction ps with
  | nil => exact .nil
  | cons p ps ih =>
    rw [visitAll]
    obtain ⟨hp, hvisit⟩ := h p List.mem_cons_self
    refine .append (.cons hp hvisit) ?_
    split
    · exact ih fun q hq => h q (List.mem_cons_of_mem _ hq)
    · exact .nil

theorem below_weightReads {ps : List (ℕ × ℕ)} (h : ∀ x ∈ ps, x.1 < n ∧ x.2 < n) :
    Below n (weightReads a ps) := by
  induction ps with
  | nil => exact .nil
  | cons x ps ih =>
    obtain ⟨key, value⟩ := x
    rw [weightReads]
    obtain ⟨hkey, hvalue⟩ := h _ List.mem_cons_self
    refine .cons hkey (.cons hvalue ?_)
    split
    · exact .nil
    · exact ih fun x hx => h x (List.mem_cons_of_mem _ hx)

section Values

variable {sub : ℕ → List ℕ × Bool} {column : Column}

/-- **Setting a column reads inside**, if the records of objects do. -/
theorem Inside.below_setValueReads (h : Inside values b n)
    (hsub : ∀ e size, b ≤ e → e < n → values[e]? = some (.openBrace size) → Below n (sub e).1)
    (hb : b ≤ p) (hn : p < n) : Below n (setValueReads values a sub column p) := by
  have hweight : ∀ e size, b ≤ e → e < n → values[e]? = some (.openBrace size) →
      Below n (weightReads a (pairs values e)) := fun e size hbe hne he =>
    below_weightReads fun x hx =>
      have := h.lt_of_mem_pairs he hbe hne hx
      ⟨this.2.1, this.2.2.2⟩
  rw [setValueReads]
  refine .cons hn ?_
  rcases hp : values[p]? with - | ⟨value | size | size⟩
  · exact .nil
  · exact .nil
  · -- an array
    simp only [bracketSetValueReads]
    split_ifs
    · cases column.range with
      | table =>
        refine below_visitAll fun e he => ?_
        obtain ⟨hbe, hne⟩ := h.lt_of_mem_heads hb hn he
        refine ⟨hne, ?_⟩
        rcases hentry : values[e]? with - | ⟨value | size | size⟩
        · exact .nil
        · exact .nil
        · exact .nil
        · exact hsub e size hbe hne hentry
      | text =>
        refine below_visitAll fun e he => ?_
        obtain ⟨hbe, hne⟩ := h.lt_of_mem_heads hb hn he
        refine ⟨hne, ?_⟩
        rcases hentry : values[e]? with - | ⟨value | size | size⟩
        · exact .nil
        · exact .nil
        · exact .nil
        · exact hweight e size hbe hne hentry
      | fixed =>
        refine below_visitAll fun e he => ?_
        obtain ⟨hbe, hne⟩ := h.lt_of_mem_heads hb hn he
        refine ⟨hne, ?_⟩
        rcases values[e]? with - | ⟨value | size | size⟩ <;> exact .nil
    · exact .nil
  · -- an object
    simp only [braceSetValueReads]
    split_ifs
    · exact hweight p size hb hn hp
    · exact hsub p size hb hn hp
    · exact .nil

theorem Inside.below_braceSetValuesReads (h : Inside values b n)
    (hsub : ∀ e size, b ≤ e → e < n → values[e]? = some (.openBrace size) → Below n (sub e).1)
    {ps : List (ℕ × ℕ)} (hps : ∀ x ∈ ps, x.1 < n ∧ b ≤ x.2 ∧ x.2 < n) :
    Below n (braceSetValuesReads values a sub ps) := by
  induction ps with
  | nil => exact .nil
  | cons x ps ih =>
    obtain ⟨name, value⟩ := x
    obtain ⟨hname, hb, hn⟩ := hps _ List.mem_cons_self
    rw [braceSetValuesReads]
    refine .append (.cons hname (.cons hn ?_)) (ih fun x hx => hps x (List.mem_cons_of_mem _ hx))
    split
    · exact .nil
    · cases a.column value with
      | none => exact .nil
      | some column => exact h.below_setValueReads hsub hb hn

theorem Inside.below_bracketSetValuesReads (h : Inside values b n)
    (hsub : ∀ e size, b ≤ e → e < n → values[e]? = some (.openBrace size) → Below n (sub e).1)
    {nColumns i : ℕ} {ps : List ℕ} (hps : ∀ p ∈ ps, b ≤ p ∧ p < n) :
    Below n (bracketSetValuesReads values a sub nColumns i ps) := by
  induction nColumns generalizing i ps with
  | zero => exact .nil
  | succ nColumns ih =>
    cases ps with
    | nil => exact .nil
    | cons value ps =>
      obtain ⟨hb, hn⟩ := hps _ List.mem_cons_self
      rw [bracketSetValuesReads]
      refine .append (.cons hn ?_) (ih fun x hx => hps x (List.mem_cons_of_mem _ hx))
      split
      · exact .nil
      · cases a.column value with
        | none => exact .nil
        | some column => exact h.below_setValueReads hsub hb hn

end Values

/-- What the scan reads are names and values, and so are the identifiers that it finds. -/
theorem scanReads_spec {ps : List (ℕ × ℕ)} {noKey : Bool} {id key : Option ℕ}
    (hps : ∀ x ∈ ps, x.1 < n ∧ x.2 < n) (hid : ∀ q ∈ id, q < n) (hkey : ∀ q ∈ key, q < n) :
    Below n (scanReads values noKey ps id key).1 ∧
    ∀ id' key', (scanReads values noKey ps id key).2 = some (id', key') →
      (∀ q ∈ id', q < n) ∧ (∀ q ∈ key', q < n) ∧ ∀ x ∈ ps, (textAt values x.1).isSome := by
  induction ps generalizing id key with
  | nil =>
    refine ⟨.nil, fun id' key' h => ?_⟩
    obtain ⟨rfl, rfl⟩ := Prod.mk.inj (Option.some.inj h)
    exact ⟨hid, hkey, fun x hx => nomatch hx⟩
  | cons x ps ih =>
    obtain ⟨name, value⟩ := x
    obtain ⟨hname, hvalue⟩ := hps _ List.mem_cons_self
    have hps' : ∀ x ∈ ps, x.1 < n ∧ x.2 < n := fun x hx => hps x (List.mem_cons_of_mem _ hx)
    have hsome : ∀ q ∈ some value, q < n := by
      intro q hq
      obtain rfl := Option.some.inj hq
      exact hvalue
    have hstop : Below n [name] := .cons hname .nil
    rw [scanReads]
    rcases htext : textAt values name with - | text
    · exact ⟨hstop, nofun⟩
    · have hgo : ∀ id₁ key₁, (∀ q ∈ id₁, q < n) → (∀ q ∈ key₁, q < n) →
          Below n (name :: value :: (scanReads values noKey ps id₁ key₁).1) ∧
          ∀ id' key', (scanReads values noKey ps id₁ key₁).2 = some (id', key') →
            (∀ q ∈ id', q < n) ∧ (∀ q ∈ key', q < n) ∧
              ∀ x ∈ (name, value) :: ps, (textAt values x.1).isSome := by
        intro id₁ key₁ hid₁ hkey₁
        obtain ⟨hbelow, hfound⟩ := ih hps' hid₁ hkey₁
        refine ⟨.cons hname (.cons hvalue hbelow), fun id' key' h => ?_⟩
        obtain ⟨h₁, h₂, h₃⟩ := hfound id' key' h
        refine ⟨h₁, h₂, fun x hx => ?_⟩
        rcases List.mem_cons.mp hx with rfl | hx
        · rw [htext]
          rfl
        · exact h₃ x hx
      simp only
      split_ifs
      · exact ⟨hstop, nofun⟩
      · exact hgo _ _ hsome hkey
      · exact ⟨hstop, nofun⟩
      · exact hgo _ _ hid hsome
      · exact hgo _ _ hid hkey

/-- A text has no entries inside, so that both loops over the members find the same. -/
theorem members_eq_pairs (h : ∀ x ∈ pairs values p, (textAt values x.1).isSome) :
    members values p = pairs values p := by
  have hloop : ∀ fuel q, (∀ x ∈ pairsLoop values (nextAt values) (nextAt values p) fuel q,
      (textAt values x.1).isSome) →
      pairsLoop values (· + 1) (nextAt values p) fuel q =
        pairsLoop values (nextAt values) (nextAt values p) fuel q := by
    intro fuel
    induction fuel with
    | zero => exact fun q _ => rfl
    | succ fuel ih =>
      intro q hq
      rw [pairsLoop] at hq
      rw [pairsLoop, pairsLoop]
      by_cases hlt : q < nextAt values p
      · rw [if_pos hlt] at hq ⊢
        rw [if_pos hlt]
        have htext := hq _ List.mem_cons_self
        have hnext : nextAt values q = q + 1 := by
          simp only [textAt] at htext
          rcases hdrop : values.drop q with - | ⟨e, rest⟩
          · rw [hdrop] at htext
            exact absurd htext (by simp [textOf])
          · have hentry : values[q]? = some e := by
              rw [← List.head?_drop, hdrop]
              rfl
            rw [hdrop] at htext
            cases e with
            | scalar value => rw [nextAt, sizeAt, hentry]; rfl
            | openBracket size => exact absurd htext (by simp [textOf])
            | openBrace size => exact absurd htext (by simp [textOf])
        rw [hnext] at hq ⊢
        rw [ih _ fun x hx => hq x (List.mem_cons_of_mem _ hx)]
      · rw [if_neg hlt, if_neg hlt]
  exact hloop _ _ h

/-- **The record of an object reads inside.** -/
theorem Inside.below_braceAddRecordReads (h : Inside values b n) {fuel size : ℕ} (hb : b ≤ p)
    (hn : p < n) (hp : values[p]? = some (.openBrace size)) :
    Below n (braceAddRecordReads values a fuel p).1 := by
  induction fuel generalizing p size with
  | zero => exact .nil
  | succ fuel ih =>
    have hpairs : ∀ x ∈ pairs values p, x.1 < n ∧ b ≤ x.2 ∧ x.2 < n := fun x hx =>
      (h.lt_of_mem_pairs hp hb hn hx).2
    obtain ⟨hscan, hfound⟩ := @scanReads_spec F values n (pairs values p) (a.noKey p) none none
      (fun x hx => ⟨(hpairs x hx).1, (hpairs x hx).2.2⟩) nofun nofun
    rw [braceAddRecordReads]
    rcases heq : scanReads values (a.noKey p) (pairs values p) none none with ⟨reads, - | ⟨id, key⟩⟩
    · rw [heq] at hscan
      exact .cons hn hscan
    · rw [heq] at hscan hfound
      obtain ⟨hid, hkey, htext⟩ := hfound id key rfl
      have hident : Below n (identifierReads id key) := by
        cases id with
        | some value => exact .cons (hid value rfl) .nil
        | none =>
          intro q hq
          exact hkey q (Option.mem_toList.mp hq)
      simp only
      split_ifs
      · exact .cons hn hscan
      · refine .append (.append (.cons hn hscan) hident) ?_
        rw [members_eq_pairs htext]
        exact h.below_braceSetValuesReads (fun e size hbe hne he => ih hbe hne he) hpairs
      · exact .append (.cons hn hscan) hident

/-- The value of `_key` is not behind the values of an array. -/
def KeyInside (values : List (Entry F)) (a : Answers) (p : ℕ) : Prop :=
  a.idOffset = none → ∀ k ∈ a.keyOffset, (heads values p).length = a.nColumns → k < sizeAt values p

/-- **The record of an array reads inside.** -/
theorem Inside.below_bracketAddRecordReads (h : Inside values b n) (hb : b ≤ p) (hn : p < n)
    (hkey : KeyInside values a p) : Below n (bracketAddRecordReads values a p) := by
  have hheads : ∀ q ∈ heads values p, b ≤ q ∧ q < n := fun q hq => h.lt_of_mem_heads hb hn hq
  rw [bracketAddRecordReads]
  refine .append (.cons hn fun q hq => (hheads q hq).2) ?_
  split
  · exact .nil
  next hcount =>
    refine .append ?_ ?_
    · rw [bracketIdentifierReads]
      cases hid : a.idOffset with
      | some i => exact fun q hq => (hheads q (List.mem_of_mem_take hq)).2
      | none =>
        intro q hq
        obtain ⟨k, hk, rfl⟩ := List.mem_map.mp hq
        have hlt := hkey hid k (Option.mem_toList.mp hk) (by_contra fun hne => hcount (.inr hne))
        have := (h.reaches p hb hn).2
        rw [nextAt] at this
        omega
    · split
      · exact h.below_bracketSetValuesReads
          (fun e size hbe hne he => h.below_braceAddRecordReads hbe hne he) hheads
      · exact .nil

end Groonga.Load
