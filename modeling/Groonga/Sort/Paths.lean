import Groonga.Hash.Sort
import Groonga.Pat.KeyEncoding
import Groonga.Pat.RangeCursor
import Mathlib

/-!
# The two ways to sort a table by one column

`grn_table_sort` with one key takes the index of the column when there is one: it goes through
the terms of the lexicon in their order and lists the postings of each. Otherwise it reads the
value of each record, parts the records by the first one and sorts the wanted part of the array.

The table is the list of its records in the order of its cursor. A range is two numbers of 32
bits with a sign; a table has fewer than 2^30 records, so that no sum of the source wraps
around. Memory is always there, but the result may have no room for a record more.
-/

namespace Groonga.Sort

open Lib Pat

/-! ## The range -/

/-- The errors of `grn_output_range_normalize`. -/
inductive RangeError where
  | tooSmallLimit
  | tooSmallOffset
  | tooLargeOffset
deriving DecidableEq, Repr

/-- `grn_output_range_normalize`: the offset and the limit. -/
def grnOutputRangeNormalize (size : ℕ) (offset limit : ℤ) : Except RangeError (ℕ × ℕ) :=
  let limit := if limit < 0 then limit + size + 1 else if (size : ℤ) < limit then (size : ℤ) else limit
  if limit < 0 then .error .tooSmallLimit
  else
    let moved := offset + size
    if offset < 0 ∧ moved < 0 ∧ limit + moved < 0 then .error .tooSmallOffset
    else if 0 < offset ∧ (size : ℤ) ≤ offset then .error .tooLargeOffset
    else
      let limit := if offset < 0 ∧ moved < 0 then limit + moved else limit
      let offset := if offset < 0 then (if moved < 0 then 0 else moved) else offset
      let stop := offset + limit
      let limit := if (size : ℤ) < stop then limit - (stop - size) else limit
      .ok (offset.toNat, limit.toNat)

/-! ## Values -/

/-- The types of a sort key column: text, and integers without and with a sign. -/
inductive ColumnType where
  | text
  | uint
  | int
deriving DecidableEq, Repr

/-- `CMPNUM`: whether the first value is the greater one. -/
def cmpnum (num : List UInt8 → ℤ) (a b : List UInt8) : Bool :=
  if 0 < a.length then (if 0 < b.length then decide (num b < num a) else true) else false

/-- The comparison of `sort_value_compare` for one ascending key. Texts are compared as by
`grn_str_greater`. -/
def valueGreater (bigEndian : Bool) : ColumnType → List UInt8 → List UInt8 → Bool
  | .text => Hash.strGreater
  | .uint => cmpnum fun v => hostNat bigEndian v
  | .int => cmpnum fun v => signedNumber v.length (hostNat bigEndian v)

/-- `sort_value_compare` for one key. -/
def sortValueCompare (bigEndian : Bool) (type : ColumnType) (descending : Bool) (a b : List UInt8) : Bool :=
  if descending then valueGreater bigEndian type b a else valueGreater bigEndian type a b

/-- What is sorted: the records, the values of the key column and its type, and the flag
`GRN_TABLE_SORT_DESC`. -/
structure SortedTable where
  ids : List ℕ
  value : ℕ → List UInt8
  type : ColumnType
  bigEndian : Bool
  descending : Bool

/-- The index of the key column: its lexicon, and the records of the postings of a term in the
order of `grn_ii_cursor_next`. -/
structure ColumnIndex where
  lexicon : GrnPat
  postings : ℕ → List ℕ

/-- The records that are appended to the result, and `n_sorted_records`. -/
structure SortResult where
  ids : List ℕ
  nSortedRecords : ℕ
deriving DecidableEq, Repr

/-! ## With an index -/

/-- The inner loop of `grn_table_sort_index`. The result has room for `room` records. -/
def postingLoop (room offset e : ℕ) : List ℕ → SortResult → SortResult
  | [], r => r
  | rid :: rids, r =>
    if r.nSortedRecords < e then
      if offset ≤ r.nSortedRecords then
        if r.ids.length < room then
          postingLoop room offset e rids ⟨r.ids ++ [rid], r.nSortedRecords + 1⟩
        else r
      else postingLoop room offset e rids ⟨r.ids, r.nSortedRecords + 1⟩
    else r

/-- The outer loop. -/
def termLoop (postings : ℕ → List ℕ) (room offset e : ℕ) : List ℕ → SortResult → SortResult
  | [], r => r
  | tid :: tids, r =>
    if r.nSortedRecords < e then
      termLoop postings room offset e tids (postingLoop room offset e (postings tid) r)
    else r

/-- `grn_table_sort_index`. The cursor of the lexicon has no bounds. -/
def grnTableSortIndex (index : ColumnIndex) (descending : Bool) (room offset limit : ℕ) : Option SortResult :=
  (rangeCursorIds index.lexicon [] [] 0 (-1) false false descending).map fun tids =>
    termLoop index.postings room offset (offset + limit) tids ⟨[], 0⟩

/-! ## Without an index -/

section
variable {α : Type} (gt : α → α → Bool)

/-- The variables of `sort_value_pack`. The last entry that was put into the queue is its
head. -/
structure PackState (α : Type) where
  head : ℕ
  tail : ℕ
  target : ℕ
  queue : List α
  entries : ℕ → α

/-- One round of the first loop of `sort_value_pack`. -/
def PackState.forward (first : α) (p : PackState α) : PackState α :=
  if gt first (p.entries p.target) then
    { p with entries := swapAt p.entries p.head p.target, head := p.head + 1, target := p.target + 1 }
  else
    { p with
      queue := p.entries p.tail :: p.queue
      entries := Function.update p.entries p.tail (p.entries p.target)
      tail := p.tail - 1
      target := p.target + 1 }

def forwardLoop (first : α) : ℕ → PackState α → Option (PackState α)
  | 0, _ => none
  | fuel + 1, p => if p.target < p.tail then forwardLoop first fuel (p.forward gt first) else some p

/-- The entry where the two ends meet. -/
def PackState.meet (first : α) (p : PackState α) : PackState α :=
  if p.target = p.tail then
    if gt first (p.entries p.target) then
      { p with entries := swapAt p.entries p.head p.target, head := p.head + 1 }
    else { p with queue := p.entries p.tail :: p.queue }
  else p

/-- `sort_value_pack`: the position of the first entry, unless there are at most two. The
queued entries go to the two ends as entries of a list do. -/
def sortValuePack (n : ℕ) (entries : ℕ → α) : Option (Option ℕ × (ℕ → α)) :=
  let first := entries 0
  (forwardLoop gt first n ⟨0, n - 1, 1, [], entries⟩).map fun p =>
    let p := p.meet gt first
    let r := packItems gt first p.queue p.head p.tail p.entries
    (if 2 < n then some r.1 else none, r.2)

/-- The sorted array of `grn_table_sort_value_body`. -/
def sortValueEntries (n offset limit : ℕ) (entries : ℕ → α) : Option (ℕ → α) :=
  (sortValuePack gt n entries).bind fun r =>
    match r.1 with
    | none => some r.2
    | some ep => sortBoth (windowSort gt n) 0 (n - 1) ep offset ((offset + limit : ℕ) : ℤ) r.2

end

/-- `grn_table_sort_value_body`. -/
def grnTableSortValueBody (t : SortedTable) (room offset limit : ℕ) : Option SortResult :=
  let n := t.ids.length
  (sortValueEntries (fun a b => sortValueCompare t.bigEndian t.type t.descending (t.value a) (t.value b)) n
    offset limit fun i => t.ids.getD i 0).map fun entries =>
    let ids := ((List.range (min limit (n - offset))).map fun i => entries (offset + i)).take room
    ⟨ids, ids.length⟩

/-- `grn_table_sort` with one key, with the index of its column or without. -/
def grnTableSort (t : SortedTable) (index : Option ColumnIndex) (room : ℕ) (offset limit : ℤ) :
    Option SortResult :=
  match grnOutputRangeNormalize t.ids.length offset limit with
  | .error _ => some ⟨[], 0⟩
  | .ok range =>
    match index with
    | some index => grnTableSortIndex index t.descending room range.1 range.2
    | none =>
      if range.1 + range.2 = 0 then some ⟨[], 0⟩ else grnTableSortValueBody t room range.1 range.2

end Groonga.Sort
