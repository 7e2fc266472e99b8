import Groonga.Hash.Basic

/-!
# Hash tables: operations

The loops that look for a key have no end of their own: they go on until they come to the key or to
a slot that is nil. Each takes as much fuel as the table has slots, because by then every slot was
looked at and nothing else will come; a loop that has no fuel left does not end, and the result is
`none`. Only the loop of an addition is bounded in the source.
-/

namespace Groonga.Hash

open Lib

/-! ## Probing -/

/-- `i += step` for a `uint32_t`. -/
def nextProbe (i step : ℕ) : ℕ := (i + step) % 0x100000000

/-- The loops of `grn_hash_get`, `grn_hash_delete`, `grn_hash_delete_by_id` and `entry2id`: where
they stop, and with which content. -/
def probeLoop (s : GrnHash) (step : ℕ) (stop : ℕ → Bool) : ℕ → ℕ → Option (ℕ × ℕ)
  | 0, _ => none
  | fuel + 1, i =>
    if stop (s.idxAt i) then some (i, s.idxAt i) else probeLoop s step stop fuel (nextProbe i step)

/-- The probes of a hash value, until the content satisfies the condition. -/
def GrnHash.probe (s : GrnHash) (hashValue : ℕ) (stop : ℕ → Bool) : Option (ℕ × ℕ) :=
  probeLoop s (calculateStep hashValue) stop (s.maxOffset + 1) hashValue

/-- The loops stop at nil and at an entry with the key. -/
def GrnHash.stopsAtKey (g : Config) (s : GrnHash) (key : List UInt8) (id : ℕ) : Bool :=
  id = 0 || (id ≠ garbage && s.compareKey g id (g.hashValue key) key)

/-- The loops stop at nil and at the id. -/
def stopsAtId (id content : ℕ) : Bool := content = 0 || content = id

/-- `grn_hash_get`: the id, 0 if there is none. -/
def hashGet (g : Config) (s : GrnHash) (key : List UInt8) : Option ℕ :=
  if g.Fits key then
    (s.probe (g.hashValue key) (s.stopsAtKey g key)).map Prod.snd
  else some 0

/-- `entry2id`. -/
def entry2id (s : GrnHash) (id : ℕ) : Option ℕ :=
  (s.probe (s.entries id).word (stopsAtId id)).map Prod.snd

/-! ## Deletions -/

/-- `grn_hash_delete_internal`. -/
def hashDeleteInternal (g : Config) (s : GrnHash) (id keySize i : ℕ) : GrnHash :=
  let s := s.log g (.deleteEntry id keySize i (s.garbages (g.garbageIndex keySize)) s.nGarbages s.nEntries)
  hashDeleteEntry g s id keySize i

/-- `grn_hash_delete_by_id`. -/
def hashDeleteById (g : Config) (s : GrnHash) (id : ℕ) : Option (Bool × GrnHash) :=
  if id = 0 ∨ ¬ s.entryExists g id then some (false, s)
  else
    (s.probe (s.entries id).word (stopsAtId id)).map fun r =>
      if r.2 = 0 then (false, s)
      else (true, hashDeleteInternal g s id ((s.entries id).getKeySize g) r.1)

/-- `grn_hash_delete`. -/
def hashDelete (g : Config) (s : GrnHash) (key : List UInt8) : Option (Bool × GrnHash) :=
  if g.Fits key then
    (s.probe (g.hashValue key) (s.stopsAtKey g key)).map fun r =>
      if r.2 = 0 then (false, s) else (true, hashDeleteInternal g s r.2 key.length r.1)
  else some (false, s)

/-! ## Hashing again -/

/-- `new_index_size *= 2`. -/
def indexSizeLoop (expected : ℕ) : ℕ → ℕ → ℕ
  | 0, size => size
  | fuel + 1, size => if size ≤ expected then indexSizeLoop expected fuel (size * 2) else size

/-- The number of entries that the table is made for. `source` is the number of records of the domain
if that is a table. -/
def expectedNEntries (g : Config) (s : GrnHash) (expected : ℕ) (source : Option ℕ) : ℕ :=
  if expected = 0 then
    let expected := s.nEntries * 2
    let expected := if maxIndexSize ≤ expected then maxIndexSize - 1 else expected
    match source with
    | some nSourceRecords =>
      if g.maybeTable ∧ expected < nSourceRecords + 1 then nSourceRecords + 1 else expected
    | none => expected
  else expected

/-- The first nil slot of the new table for an entry. -/
def destLoop (index : ℕ → ℕ) (destOffset newMaxOffset step : ℕ) : ℕ → ℕ → Option ℕ
  | 0, _ => none
  | fuel + 1, i =>
    let slot := i &&& newMaxOffset
    if index (slot + destOffset) = 0 then some (slot + destOffset)
    else destLoop index destOffset newMaxOffset step fuel (nextProbe slot step)

/-- The entries are copied to the new table. `src` gives the old table: in a hash with a file both
are in one area. -/
def copyLoop (s : GrnHash) (src : (ℕ → ℕ) → ℕ → ℕ) (destOffset newMaxOffset : ℕ) :
    ℕ → ℕ → ℕ → (ℕ → ℕ) → Option (ℕ → ℕ)
  | 0, _, _, index => some index
  | fuel + 1, srcPos, count, index =>
    if count < s.nEntries ∧ srcPos ≤ s.maxOffset then
      let id := src index (srcPos + s.idxOffset)
      if id = 0 ∨ id = garbage then copyLoop s src destOffset newMaxOffset fuel (srcPos + 1) count index
      else
        let hashValue := (s.entries id).word
        match destLoop index destOffset newMaxOffset (calculateStep hashValue) (newMaxOffset + 1) hashValue with
        | none => none
        | some dest =>
          copyLoop s src destOffset newMaxOffset fuel (srcPos + 1) (count + 1)
            (Function.update index dest id)
    else some index

/-- The segments of the new table are cleared. -/
def clearIndex (index : ℕ → ℕ) (destOffset newIndexSize : ℕ) : ℕ → ℕ := fun j =>
  if destOffset ≤ j ∧
      j < destOffset + (newIndexSize + (indexSegmentSize - 1)) / indexSegmentSize * indexSegmentSize then 0
  else index j

/-- `grn_hash_rehash`. -/
def hashRehash (g : Config) (s : GrnHash) (expected : ℕ) (source : Option ℕ) : Option GrnHash :=
  let expected := expectedNEntries g s expected source
  if maxIndexSize ≤ expected then none
  else
    let newIndexSize := indexSizeLoop expected 32 initialIndexSize
    let destOffset := if g.io then maxIndexSize - s.idxOffset else 0
    let index := if g.io then clearIndex s.index destOffset newIndexSize else fun _ => 0
    let src (index : ℕ → ℕ) : ℕ → ℕ := if g.io then index else s.index
    (copyLoop s src destOffset (newIndexSize - 1) (s.maxOffset + 1) 0 0 index).map fun index =>
      { s with
        maxOffset := newIndexSize - 1
        nGarbages := 0
        index := index
        idxOffset := destOffset }

/-- `grn_hash_ensure_rehash`. -/
def hashEnsureRehash (g : Config) (s : GrnHash) (threshold : ℕ) (source : Option ℕ) : Bool × GrnHash :=
  if threshold ≤ s.maxOffset ∨ s.maxOffset = maxIndexSize - 1 then (true, s)
  else
    let s := s.log g (.rehash s.nEntries s.maxOffset 0)
    match hashRehash g s 0 source with
    | some s => (true, s)
    | none => (false, s)

/-! ## Additions -/

/-- `GRN_ID_MAX`. -/
def idMax : ℕ := 0x3fffffff

/-- The rest of `grn_io_hash_add` when the entry has its slot. An entry whose key finds no room is
deleted. -/
def ioHashFinish (g : Config) (s : GrnHash) (id hashValue : ℕ) (key : List UInt8) : ℕ × GrnHash :=
  let s := s.log g (.enableEntry id)
  let s := s.log g (.setEntryKey id key hashValue s.currKey)
  let s := ioHashEnableEntry s id
  match entryPutKey g s id hashValue key with
  | some s => (id, s)
  | none => (0, ((hashDeleteById g s id).map Prod.snd).getD s)

/-- `grn_io_hash_add`. -/
def ioHashAdd (g : Config) (s : GrnHash) (hashValue : ℕ) (key : List UInt8) (i : ℕ)
    (foundGarbage : Bool) : ℕ × GrnHash :=
  let id := s.garbages (g.garbageIndex key.length)
  if id ≠ 0 then
    let s := s.log g (.reuseEntry id key.length i s.nGarbages s.nEntries foundGarbage)
    let s := ioHashReuseEntry s id i foundGarbage
    let next := (s.entries id).word
    let s := s.log g (.resetEntry id key.length next)
    let s := ioHashResetEntry g s id key.length next
    ioHashFinish g s id hashValue key
  else
    let id := s.currRec + 1
    let s := s.log g (.addEntry id i s.nEntries)
    if idMax < id then (0, s) else ioHashFinish g (ioHashAddEntry s id i) id hashValue key

/-- `grn_tiny_hash_add`. -/
def tinyHashAdd (g : Config) (s : GrnHash) (hashValue : ℕ) (key : List UInt8) (i : ℕ)
    (foundGarbage : Bool) : ℕ × GrnHash :=
  let id := if s.garbages 0 ≠ 0 then s.garbages 0 else s.currRec + 1
  let s :=
    if s.garbages 0 ≠ 0 then (s.setGarbages 0 (s.entries id).word).setEntry id Entry.zero
    else { s with currRec := id }
  let s := ioHashEnableEntry (ioHashReuseEntry s id i foundGarbage) id
  (id, (entryPutKey g s id hashValue key).getD s)

/-- Where the loop of `grn_hash_add_entry` ends: at an entry with the key, or with the slot for a new
entry. The loop remembers the first slot that is `GARBAGE` and the last slot. -/
def addLoop (g : Config) (s : GrnHash) (key : List UInt8) (step : ℕ) :
    ℕ → ℕ → Option ℕ → ℕ → ℕ ⊕ ℕ × Bool
  | 0, _, garbageIndex, last => .inr (garbageIndex.getD last, garbageIndex.isSome)
  | fuel + 1, i, garbageIndex, _ =>
    let id := s.idxAt i
    if id = 0 then .inr (garbageIndex.getD i, garbageIndex.isSome)
    else if id = garbage then
      addLoop g s key step fuel (nextProbe i step) (some (garbageIndex.getD i)) i
    else if s.compareKey g id (g.hashValue key) key then .inl id
    else addLoop g s key step fuel (nextProbe i step) garbageIndex i

/-- `grn_hash_add_entry`: the id, 0 if it failed, and whether it was added. -/
def hashAddEntry (g : Config) (s : GrnHash) (key : List UInt8) : ℕ × Bool × GrnHash :=
  let hashValue := g.hashValue key
  match addLoop g s key (calculateStep hashValue) maxIndexSize hashValue none hashValue with
  | .inl id => (id, false, s)
  | .inr (i, foundGarbage) =>
    if ¬ foundGarbage ∧ s.nEntries = maxIndexSize then (0, false, s)
    else
      let r :=
        if g.io then ioHashAdd g s hashValue key i foundGarbage
        else tinyHashAdd g s hashValue key i foundGarbage
      (r.1, r.1 ≠ 0, r.2)

/-- `reset_threshold`. -/
def addThreshold (g : Config) (s : GrnHash) : ℕ := (s.nEntries + s.nGarbages) * (if g.maybeTable then 1 else 2)

/-- `grn_hash_add`. -/
def hashAdd (g : Config) (s : GrnHash) (key : List UInt8) (source : Option ℕ) : ℕ × Bool × GrnHash :=
  if g.Accepts key then
    match hashEnsureRehash g s (addThreshold g s) source with
    | (false, s) => (0, false, s)
    | (true, s) => hashAddEntry g s key
  else (0, false, s)

/-- `grn_hash_set_value` with `GRN_OBJ_SET`. -/
def hashSetValue (g : Config) (s : GrnHash) (id : ℕ) (value : List UInt8) : Bool × GrnHash :=
  if s.bitmap id ∧ s.entryExists g id then
    (true, hashSetValueRaw g (s.log g (.setValue id value)) id value)
  else (false, s)

/-- `grn_hash_get_value`. -/
def hashGetValue (g : Config) (s : GrnHash) (id : ℕ) : List UInt8 :=
  if s.bitmap id ∧ s.entryExists g id then read (s.entries id).value 0 g.valueSize else []

/-! ## Records

The records of a cursor are added to a set of records one after another, with one test of the size of
the table before the first of them. The key is the id of the record, and what a record adds to the
value (its subrecords and its score) is given as the bytes of the new value. -/

/-- The key of a record. -/
def recordKey (rid : ℕ) : List UInt8 := leBytes 4 rid

/-- `grn_hash_add_records_validate`: the keys are ids. -/
def Config.ValidatesRecords (g : Config) : Prop := g.varSize = false ∧ g.keySize = 4

instance (g : Config) : Decidable g.ValidatesRecords := inferInstanceAs (Decidable (_ ∧ _))

/-- `grn_hash_add_record` with `GRN_OP_OR`, or else with `GRN_OP_AND`: the id, 0 if there is none. -/
def hashAddRecord (g : Config) (s : GrnHash) (isOr : Bool) (rid : ℕ) (value : List UInt8) :
    Option (ℕ × GrnHash) :=
  if g.ValidatesRecords then
    if isOr then
      let r := hashAddEntry g s (recordKey rid)
      some (r.1, if r.1 = 0 then r.2.2 else hashSetValueRaw g r.2.2 r.1 value)
    else
      (hashGet g s (recordKey rid)).map fun id => (id, if id = 0 then s else hashSetValueRaw g s id value)
  else some (0, s)

end Groonga.Hash
