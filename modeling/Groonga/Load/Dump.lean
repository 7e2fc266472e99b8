import Groonga.Load.Denote
import Groonga.Load.Stream
import Groonga.Str.Characters
import Mathlib

/-!
# What is dumped is loaded

`dump_records` writes the records of a table for `load`. In whatever pieces the text comes back, the
reader builds the values of the records, as long as each record fits in the array of values.
-/

namespace Groonga.Load

open Lib.JsonText

variable {F σ α : Type} {env : Env F σ}

/-! ## Dumping -/

/-- A value of a column. -/
inductive Cell where
  | text (s : List Char)
  | vector (ss : List (List Char))

/-- `grn_text_otoj`. -/
def Cell.otoj : Cell → List UInt8
  | .text s => grnTextEsc (utf8 s)
  | .vector ss => [0x5b] ++ [0x2c].intercalate (ss.map fun s => grnTextEsc (utf8 s)) ++ [0x5d]

def Cell.json : Cell → Json F
  | .text s => .scalar (.text (utf8 s))
  | .vector ss => .array (ss.map fun s => .scalar (.text (utf8 s)))

/-- `dump_record`. -/
def dumpRecord (cells : List Cell) : List UInt8 := [0x5b] ++ [0x2c].intercalate (cells.map Cell.otoj) ++ [0x5d]

/-- The text of `dump_records` behind the command; the first record has the names of the columns. -/
def dumpRecords (records : List (List Cell)) : List UInt8 :=
  [0x5b] ++ ([0x0a] ++ [0x2c, 0x0a].intercalate (records.map dumpRecord) ++ [0x0a]) ++ [0x5d] ++ [0x0a]

/-! ## Loading -/

/-- A tree with this text and value, without numbers. -/
structure Spells (v : Value) (text : List UInt8) (j : Json F) : Prop where
  chars : v.chars.flatten = text
  numbers : valueNumbers v = []
  denotes : ∀ f, denoteValue f v = j

/-- Trees, with spaces before each one and behind the last one. -/
theorem exists_items {ws : List Space} {val : α → Value} {text : α → List UInt8} {json : α → Json F}
    (h : ∀ a, Spells (val a) (text a) (json a)) {row : List α} (hrow : row ≠ [] ∨ ws = []) :
    ∃ items, items.chars.flatten = (spaces ws).flatten ++
          (0x2c :: (spaces ws).flatten).intercalate (row.map text) ++ (spaces ws).flatten ∧
        itemsNumbers items = [] ∧ (∀ f, denoteItems f items = row.map json) ∧
        ((∀ a n, (val a).IsContainer ∧ sizeBehind n (val a) = n) → ∀ (strtod : Strtod F) n,
          ItemsOk strtod n items ↔ ∀ a ∈ row, n + (json a).flatten.length ≤ 2 ^ 27) := by
  induction row with
  | nil =>
    obtain rfl := hrow.resolve_left fun hne => hne rfl
    exact ⟨.nil, rfl, rfl, fun _ => rfl, fun _ _ _ => iff_of_true trivial (List.forall_mem_nil _)⟩
  | cons a row ih =>
    -- `values_size` is the same behind a record
    have hok : ∀ items after, (∀ a n, (val a).IsContainer ∧ sizeBehind n (val a) = n) → ∀ (strtod : Strtod F) n,
        ItemsOk strtod n (.cons ws (val a) after items) ↔
          n + (json a).flatten.length ≤ 2 ^ 27 ∧ ItemsOk strtod n items := by
      intro items after hval strtod n
      rw [ItemsOk, (hval a n).2, RecordOk, (h a).numbers, (h a).denotes]
      simp [(hval a n).1]
    cases row with
    | nil =>
      refine ⟨.cons ws (val a) ws .nil, ?_, ?_, fun f => ?_, fun hval strtod n => ?_⟩
      · simp [Items.chars, Items.comma, (h a).chars]
      · simp [itemsNumbers, (h a).numbers]
      · simp [denoteItems, (h a).denotes]
      · rw [hok _ _ hval, List.forall_mem_singleton]
        exact and_iff_left trivial
    | cons b row =>
      obtain ⟨items, hchars, hnumbers, hdenotes, hitems⟩ := ih (.inl (List.cons_ne_nil b row))
      have hcomma : items.comma = [[0x2c]] := by
        cases items with
        | nil => exact absurd (hdenotes fun _ => .void) (by simp [denoteItems])
        | cons => rfl
      refine ⟨.cons ws (val a) [] items, ?_, ?_, fun f => ?_, fun hval strtod n => ?_⟩
      · simp [Items.chars, hcomma, (h a).chars, hchars, spaces]
      · simp [itemsNumbers, (h a).numbers, hnumbers]
      · simp [denoteItems, (h a).denotes, hdenotes]
      · rw [hok _ _ hval, hitems hval, List.forall_mem_cons (a := a)]

theorem exists_array {val : α → Value} {text : α → List UInt8} {json : α → Json F}
    (h : ∀ a, Spells (val a) (text a) (json a)) (row : List α) : ∃ items,
    Spells (.array [] items) ([0x5b] ++ [0x2c].intercalate (row.map text) ++ [0x5d]) (.array (row.map json)) := by
  obtain ⟨items, hchars, hnumbers, hdenotes, -⟩ := exists_items h (.inr rfl)
  exact ⟨items, by simp [Value.chars, hchars, spaces], hnumbers, fun f => congrArg _ (hdenotes f)⟩

/-- What is dumped is the text of a tree. -/
theorem exists_document {records : List (List Cell)} (hne : records ≠ []) (strtod : Strtod F) :
    ∃ d : Document, d.text = dumpRecords records ∧
      expected strtod d = closingsAll (records.map fun r => .array (r.map Cell.json)) ∧
      (ReadsRight strtod d ↔ ∀ r ∈ records, 1 + (Json.array (F := F) (r.map Cell.json)).flatten.length ≤ 2 ^ 27) := by
  choose str hstr hdec using grnTextEsc_denotes
  have htext : ∀ s, Spells (F := F) (.string (str s)) (grnTextEsc (utf8 s)) (.scalar (.text (utf8 s))) := fun s =>
    ⟨(hstr s).symm, rfl, fun f => by rw [denoteValue, hdec]; rfl⟩
  have hcell : ∀ c : Cell, ∃ v, Spells (F := F) v c.otoj c.json := by
    rintro (s | ss)
    · exact ⟨_, htext s⟩
    · exact (exists_array htext ss).imp' _ fun _ h => h
  choose cell hcell using hcell
  choose row hrow using exists_array hcell
  obtain ⟨items, hchars, -, hdenotes, hok⟩ := @exists_items F _ [.lineFeed] _ _ _ hrow records (.inl hne)
  refine ⟨⟨[], .array [] items, [.lineFeed], trivial⟩, ?_, congrArg closingsAll (hdenotes _), ?_⟩
  · simp [Document.text, Document.chars, Value.chars, hchars, spaces, dumpRecords, Space.byte]
    rfl
  · exact hok (fun _ _ => ⟨trivial, rfl⟩) strtod 1

end Groonga.Load
