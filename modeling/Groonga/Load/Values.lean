import Mathlib

/-!
# The values of the loader

The loader keeps the values of a record in one array, in preorder: an array or object has an
entry of its own, with the number of the entries that belong to it, and these entries follow.
The members of an object are a text for the name and then the value.

A pointer into the array is the rest of the array from there on. A range `[head, tail)` is
the list of its entries, and a pointer that has reached the end of the range is the empty
list.
-/

namespace Groonga.Load

/-! ## Values -/

/-- A value of one entry. The floats are those of `strtod`. -/
inductive Scalar (F : Type) where
  | text (bytes : List UInt8)
  | int64 (value : ℤ)
  | uint64 (value : ℕ)
  | float (value : F)
  | bool (value : Bool)
  | void
deriving DecidableEq, Repr

/-- An entry of `loader->values`. `GRN_JSON_LOAD_OPEN_BRACKET` and `GRN_JSON_LOAD_OPEN_BRACE`
have the number of their descendants. -/
inductive Entry (F : Type) where
  | scalar (value : Scalar F)
  | openBracket (size : ℕ)
  | openBrace (size : ℕ)
deriving DecidableEq, Repr

/-- A JSON value as the loader sees it. -/
inductive Json (F : Type) where
  | scalar (value : Scalar F)
  | array (values : List (Json F))
  | object (members : List (List UInt8 × Json F))

variable {F : Type}

mutual

/-- The entries of a value, in preorder. -/
def Json.flatten : Json F → List (Entry F)
  | .scalar value => [.scalar value]
  | .array values => .openBracket (flattenAll values).length :: flattenAll values
  | .object members => .openBrace (flattenMembers members).length :: flattenMembers members

def flattenAll : List (Json F) → List (Entry F)
  | [] => []
  | v :: values => v.flatten ++ flattenAll values

def flattenMembers : List (List UInt8 × Json F) → List (Entry F)
  | [] => []
  | (name, v) :: members => .scalar (.text name) :: v.flatten ++ flattenMembers members

end

/-! ## Walking through the entries -/

/-- How many entries belong to an entry. -/
def Entry.size : Entry F → ℕ
  | .scalar _ => 0
  | .openBracket size => size
  | .openBrace size => size

/-- `values_next`. -/
def valuesNext : List (Entry F) → List (Entry F)
  | [] => []
  | e :: values => values.drop e.size

/-- What there is to read from a pointer to a value: its entry and those that belong to it. -/
def valueAt : List (Entry F) → List (Entry F)
  | [] => []
  | e :: values => e :: values.take e.size

/-- The range of the entries that belong to an array or object. -/
def contents : List (Entry F) → List (Entry F)
  | [] => []
  | e :: values => values.take e.size

/-- The loop of `grn_loader_bracket_count`. -/
def bracketCountLoop : ℕ → List (Entry F) → ℕ
  | 0, _ => 0
  | _ + 1, [] => 0
  | fuel + 1, head => bracketCountLoop fuel (valuesNext head) + 1

/-- `grn_loader_bracket_count`. -/
def grnLoaderBracketCount (bracketValue : List (Entry F)) : ℕ :=
  bracketCountLoop (contents bracketValue).length (contents bracketValue)

/-- The loop of `grn_loader_bracket_get`: the empty list is `NULL`. -/
def bracketGetLoop : ℕ → List (Entry F) → ℕ → List (Entry F)
  | 0, _, _ => []
  | _ + 1, [], _ => []
  | fuel + 1, head, offset =>
    if offset = 0 then head else bracketGetLoop fuel (valuesNext head) (offset - 1)

/-- `grn_loader_bracket_get`. -/
def grnLoaderBracketGet (bracketValue : List (Entry F)) (offset : ℕ) : List (Entry F) :=
  bracketGetLoop (contents bracketValue).length (contents bracketValue) offset

/-! ## Entries of a value -/

variable {v : Json F} {values : List (Json F)} {rest : List (Entry F)}

/-- The first entry of a value says how many others there are. -/
theorem Json.exists_flatten_eq (v : Json F) : ∃ e l, v.flatten = e :: l ∧ e.size = l.length := by
  cases v with
  | scalar value => exact ⟨_, [], by rw [Json.flatten], rfl⟩
  | array values => exact ⟨_, flattenAll values, by rw [Json.flatten], rfl⟩
  | object members => exact ⟨_, flattenMembers members, by rw [Json.flatten], rfl⟩

theorem Json.flatten_ne_nil (v : Json F) : v.flatten ≠ [] := by
  obtain ⟨e, l, h, -⟩ := v.exists_flatten_eq
  simp [h]

theorem Json.length_flatten_pos (v : Json F) : 0 < v.flatten.length :=
  List.length_pos_iff.mpr v.flatten_ne_nil

@[simp] theorem valuesNext_scalar (value : Scalar F) (rest : List (Entry F)) :
    valuesNext (.scalar value :: rest) = rest := rfl

/-- **Skipping a value.** -/
@[simp] theorem valuesNext_flatten (v : Json F) (rest : List (Entry F)) :
    valuesNext (v.flatten ++ rest) = rest := by
  obtain ⟨e, l, h, hsize⟩ := v.exists_flatten_eq
  simp [h, valuesNext, hsize]

/-- **Reading a value.** -/
@[simp] theorem valueAt_flatten (v : Json F) (rest : List (Entry F)) :
    valueAt (v.flatten ++ rest) = v.flatten := by
  obtain ⟨e, l, h, hsize⟩ := v.exists_flatten_eq
  simp [h, valueAt, hsize]

@[simp] theorem contents_array (values : List (Json F)) :
    contents (Json.array values).flatten = flattenAll values := by
  simp [Json.flatten, contents, Entry.size]

@[simp] theorem contents_object (members : List (List UInt8 × Json F)) :
    contents (Json.object members).flatten = flattenMembers members := by
  simp [Json.flatten, contents, Entry.size]

@[simp] theorem flattenAll_nil : flattenAll ([] : List (Json F)) = [] := by rw [flattenAll]

theorem flattenAll_cons : flattenAll (v :: values) = v.flatten ++ flattenAll values := by
  rw [flattenAll]

@[simp] theorem flattenMembers_nil : flattenMembers ([] : List (List UInt8 × Json F)) = [] := by
  rw [flattenMembers]

theorem flattenMembers_cons (name : List UInt8) (members : List (List UInt8 × Json F)) :
    flattenMembers ((name, v) :: members) =
      .scalar (.text name) :: (v.flatten ++ flattenMembers members) := by
  rw [flattenMembers, List.cons_append]

/-- **The number of the values of an array.** -/
theorem bracketCountLoop_flattenAll {fuel : ℕ} (hfuel : (flattenAll values).length ≤ fuel) :
    bracketCountLoop fuel (flattenAll values) = values.length := by
  induction values generalizing fuel with
  | nil => cases fuel <;> simp [bracketCountLoop]
  | cons v values ih =>
    have hpos := v.length_flatten_pos
    rw [flattenAll_cons, List.length_append] at hfuel
    obtain ⟨fuel, rfl⟩ : ∃ n, fuel = n + 1 := ⟨fuel - 1, by omega⟩
    obtain ⟨e, l, h, -⟩ := v.exists_flatten_eq
    have hnext := valuesNext_flatten v (flattenAll values)
    rw [flattenAll_cons]
    rw [h, List.cons_append] at hnext ⊢
    rw [bracketCountLoop, hnext, ih (by omega), List.length_cons]
    exact List.cons_ne_nil e _

theorem grnLoaderBracketCount_array (values : List (Json F)) :
    grnLoaderBracketCount (Json.array values).flatten = values.length := by
  rw [grnLoaderBracketCount, contents_array]
  exact bracketCountLoop_flattenAll (Nat.le_refl _)

/-- **The value at an offset.** -/
theorem valueAt_bracketGetLoop {fuel : ℕ} (hfuel : (flattenAll values).length ≤ fuel) {offset : ℕ}
    (hv : values[offset]? = some v) :
    valueAt (bracketGetLoop fuel (flattenAll values) offset) = v.flatten := by
  induction values generalizing fuel offset with
  | nil => simp at hv
  | cons w values ih =>
    have hpos := w.length_flatten_pos
    rw [flattenAll_cons, List.length_append] at hfuel
    obtain ⟨fuel, rfl⟩ : ∃ n, fuel = n + 1 := ⟨fuel - 1, by omega⟩
    obtain ⟨e, l, h, -⟩ := w.exists_flatten_eq
    have hnext := valuesNext_flatten w (flattenAll values)
    have hat := valueAt_flatten w (flattenAll values)
    rw [flattenAll_cons]
    rw [h, List.cons_append] at hnext
    rw [h, List.cons_append, bracketGetLoop, hnext]
    · cases offset with
      | zero =>
        obtain rfl : w = v := by simpa using hv
        rw [h, List.cons_append] at hat
        rw [if_pos rfl, hat, h]
      | succ offset =>
        rw [if_neg (Nat.succ_ne_zero _), Nat.succ_sub_one]
        exact ih (by omega) (by simpa using hv)
    · exact List.cons_ne_nil e _

theorem valueAt_grnLoaderBracketGet {offset : ℕ} (hv : values[offset]? = some v) :
    valueAt (grnLoaderBracketGet (Json.array values).flatten offset) = v.flatten := by
  rw [grnLoaderBracketGet, contents_array]
  exact valueAt_bracketGetLoop (Nat.le_refl _) hv

end Groonga.Load
