import Groonga.Lib.Memory
import Mathlib

/-!
# Hash tables: records

A `grn_hash` is a table of the ids of its entries with open addressing, and the entries. The slot
of a deleted entry becomes `GARBAGE` until the table is hashed again. The entry itself goes to the
list of deleted entries for keys of its size (one list for all sizes in a hash without a file), and
the lists are linked by the first words of the entries. In a hash with a file the table takes one
half of an area, and hashing again copies it to the other half.

An entry with a key of four bytes and a fixed size has the key in its first word, which is also its
hash value. The other entries have the hash value there, and the key behind it. A key of variable
size that does not fit into its entry is in the key area (or in memory of its own, in a hash
without a file). The entry of a deleted key keeps its place in the key area.

Every step of a hash with a file is recorded in the write ahead log before it is done.
-/

namespace Groonga.Hash

open Lib

/-! ## Settings -/

/-- `GRN_HASH_MAX_KEY_SIZE_LARGE`. -/
def maxKeySizeLarge : ℕ := 0xffff

/-- `GARBAGE`. -/
def garbage : ℕ := 0xffffffff

/-- `MAX_INDEX_SIZE`. -/
def maxIndexSize : ℕ := 0x20000000

/-- `IDX_MASK_IN_A_SEGMENT + 1`. -/
def indexSegmentSize : ℕ := 0x100000

/-- `INITIAL_INDEX_SIZE`. -/
def initialIndexSize : ℕ := 256

/-- `GRN_HASH_SEGMENT_SIZE`. -/
def segmentSize : ℕ := 0x400000

/-- `grn_io_hash_calculate_entry_size` and `grn_tiny_hash_calculate_entry_size`. -/
def calculateEntrySize (io varSize keyLarge : Bool) (keySize valueSize : ℕ) : ℕ :=
  if io then
    if varSize then (if keyLarge then 16 else 12) + valueSize
    else if keySize = 4 then 4 + valueSize
    else 4 + keySize + valueSize
  else
    let size :=
      if varSize then 16 + valueSize
      else if keySize = 4 then 4 + valueSize
      else 4 + keySize + valueSize
    if size = 4 then size else (size + 7) / 8 * 8

/-- How a hash was created: with a file or not, its flags `GRN_OBJ_KEY_VAR_SIZE` and
`GRN_OBJ_KEY_LARGE`, its sizes, whether its domain may be a table, and whether there is a log. The
entries are in segments, or in an array whose elements have a size of 16 bits. -/
structure Config where
  io : Bool
  varSize : Bool
  keyLarge : Bool
  keySize : ℕ
  valueSize : ℕ
  maybeTable : Bool
  needWal : Bool
  keySize_le : keySize ≤ maxKeySizeLarge
  needWal_io : needWal = true → io = true
  entrySize_le : calculateEntrySize io varSize keyLarge keySize valueSize ≤
    if io then segmentSize else 0xffff

/-- The bytes of an entry. -/
def Config.entrySize (g : Config) : ℕ :=
  calculateEntrySize g.io g.varSize g.keyLarge g.keySize g.valueSize

/-- The loop of `grn_io_hash_create_io`: `1 << w_of_element` is not less than the size. -/
def wOfElementLoop (size : ℕ) : ℕ → ℕ → ℕ
  | 0, w => w
  | fuel + 1, w => if 2 ^ w < size then wOfElementLoop size fuel (w + 1) else w

/-- The segment or the block with the entry of an id. -/
def Config.entrySegment (g : Config) (id : ℕ) : ℕ :=
  if g.io then id / 2 ^ (22 - wOfElementLoop g.entrySize 32 0) else Nat.log2 id

/-- The bytes of a key that fit into an entry. -/
def Config.bufSize (g : Config) : ℕ := if g.io then (if g.keyLarge then 8 else 4) else 8

/-- The bytes of the place in the key area. -/
def Config.offsetSize (g : Config) : ℕ := if g.keyLarge then 8 else 4

/-- `GRN_HASH_KEY_MAX_TOTAL_SIZE_NORMAL` and `GRN_HASH_KEY_MAX_TOTAL_SIZE_LARGE`. -/
def Config.maxTotalKeySize (g : Config) : ℕ :=
  if g.keyLarge then 0x400000 * 0x40000 - 1 else 0x400000 * 0x400 - 1

/-- The sizes of the keys that `grn_hash_get` looks for. -/
def Config.Fits (g : Config) (key : List UInt8) : Prop :=
  if g.varSize then key.length ≤ g.keySize else key.length = g.keySize

instance (g : Config) (key : List UInt8) : Decidable (g.Fits key) := by
  unfold Config.Fits
  infer_instance

/-- The keys that `grn_hash_add` accepts. -/
def Config.Accepts (g : Config) (key : List UInt8) : Prop := key ≠ [] ∧ g.Fits key

instance (g : Config) (key : List UInt8) : Decidable (g.Accepts key) := inferInstanceAs (Decidable (_ ∧ _))

/-! ## Data -/

/-- `grn_hash_entry`: the first word, the flag and the size of a key of variable size, the bytes of
the key or of its place, what `key.ptr` points to, and the value. -/
structure Entry where
  word : ℕ
  flag : ℕ
  keySize : ℕ
  key : ℕ → UInt8
  pointed : List UInt8
  value : ℕ → UInt8

/-- An entry that was never used. -/
def Entry.zero : Entry := ⟨0, 0, 0, fun _ => 0, [], fun _ => 0⟩

/-- An entry of the write ahead log. -/
inductive WalEntry where
  | addEntry (id indexHashValue nEntries : ℕ)
  | reuseEntry (id keySize indexHashValue nGarbages nEntries : ℕ) (foundGarbage : Bool)
  | resetEntry (id keySize nextGarbage : ℕ)
  | enableEntry (id : ℕ)
  | setEntryKey (id : ℕ) (key : List UInt8) (keyHashValue keyOffset : ℕ)
  | deleteEntry (id keySize indexHashValue garbageRecordId nGarbages nEntries : ℕ)
  | rehash (nEntries maxOffset expectedNEntries : ℕ)
  | setValue (id : ℕ) (value : List UInt8)
deriving DecidableEq, Repr

/-- `grn_hash`: the header, the table, the entries with their bitmap, the key area, and the log. -/
structure GrnHash where
  nEntries : ℕ
  nGarbages : ℕ
  maxOffset : ℕ
  idxOffset : ℕ
  currRec : ℕ
  currKey : ℕ
  garbages : ℕ → ℕ
  index : ℕ → ℕ
  entries : ℕ → Entry
  bitmap : ℕ → Bool
  keys : ℕ → UInt8
  wal : List WalEntry

/-- `grn_io_hash_init` and `grn_tiny_hash_init`. -/
def hashCreate (g : Config) : GrnHash where
  nEntries := 0
  nGarbages := 0
  maxOffset := (if g.io then indexSegmentSize else initialIndexSize) - 1
  idxOffset := 0
  currRec := 0
  currKey := 0
  garbages := fun _ => 0
  index := fun _ => 0
  entries := fun _ => Entry.zero
  bitmap := fun _ => false
  keys := fun _ => 0
  wal := []

/-- The entry of an id is somewhere: its segment exists. -/
def GrnHash.entryExists (g : Config) (s : GrnHash) (id : ℕ) : Bool :=
  s.currRec ≠ 0 && decide (g.entrySegment id ≤ g.entrySegment s.currRec)

def GrnHash.setEntry (s : GrnHash) (id : ℕ) (e : Entry) : GrnHash :=
  { s with entries := Function.update s.entries id e }

/-- The place of a slot: `(i & max_offset) + idx_offset`. -/
def GrnHash.idxPos (s : GrnHash) (i : ℕ) : ℕ := (i &&& s.maxOffset) + s.idxOffset

/-- `*grn_hash_idx_at`. -/
def GrnHash.idxAt (s : GrnHash) (i : ℕ) : ℕ := s.index (s.idxPos i)

/-- `*grn_hash_idx_at = id`. -/
def GrnHash.setIdx (s : GrnHash) (i id : ℕ) : GrnHash :=
  { s with index := Function.update s.index (s.idxPos i) id }

/-- The list of deleted entries for keys of the size. -/
def Config.garbageIndex (g : Config) (keySize : ℕ) : ℕ := if g.io then keySize - 1 else 0

def GrnHash.setGarbages (s : GrnHash) (i id : ℕ) : GrnHash :=
  { s with garbages := Function.update s.garbages i id }

/-- `grn_hash_wal_add_entry`. -/
def GrnHash.log (g : Config) (s : GrnHash) (e : WalEntry) : GrnHash :=
  if g.needWal then { s with wal := s.wal ++ [e] } else s

/-! ## Keys -/

/-- `grn_hash_calculate_hash_value`. -/
def calculateHashValue (key : List UInt8) : ℕ :=
  key.foldl (fun h b => (h * 1021 + b.toNat) % 0x100000000) 0

/-- The hash value of a key in `grn_hash_add`, `grn_hash_get` and `grn_hash_delete`. -/
def Config.hashValue (g : Config) (key : List UInt8) : ℕ :=
  if ¬ g.varSize ∧ key.length = 4 then leNat key else calculateHashValue key

/-- `grn_hash_calculate_step`. -/
def calculateStep (hashValue : ℕ) : ℕ := hashValue >>> 2 ||| 0x1010101

/-- `HASH_IMMEDIATE`. -/
def Entry.isImmediate (e : Entry) : Bool := e.flag % 2 = 1

/-- The place of the key in the key area. -/
def Entry.keyOffset (g : Config) (e : Entry) : ℕ := readNat e.key 0 g.offsetSize

/-- `grn_hash_entry_get_key_size`. -/
def Entry.getKeySize (g : Config) (e : Entry) : ℕ := if g.varSize then e.keySize else g.keySize

/-- `grn_hash_entry_get_key`: the first `n` bytes. -/
def GrnHash.keyBytes (g : Config) (s : GrnHash) (e : Entry) (n : ℕ) : List UInt8 :=
  if g.varSize then
    if e.isImmediate then read e.key 0 n
    else if g.io then read s.keys (e.keyOffset g) n
    else e.pointed.take n
  else if g.keySize = 4 then (leBytes 4 e.word).take n
  else read e.key 0 n

/-- The key of an entry. -/
def GrnHash.getKey (g : Config) (s : GrnHash) (id : ℕ) : List UInt8 :=
  s.keyBytes g (s.entries id) ((s.entries id).getKeySize g)

/-- `grn_hash_entry_compare_key`. -/
def GrnHash.compareKey (g : Config) (s : GrnHash) (id hashValue : ℕ) (key : List UInt8) : Bool :=
  let e := s.entries id
  if g.varSize then
    e.word = hashValue && e.keySize = key.length && s.keyBytes g e key.length = key
  else e.word = hashValue && (key.length = 4 || s.keyBytes g e key.length = key)

/-- `grn_io_hash_entry_put_key`, nothing if there is no room for the key. -/
def ioEntryPutKey (g : Config) (s : GrnHash) (id : ℕ) (key : List UInt8) : Option GrnHash :=
  let e := s.entries id
  if 0 < e.keySize then some { s with keys := write s.keys (e.keyOffset g) key }
  else if segmentSize ≤ key.length then none
  else if g.maxTotalKeySize - s.currKey < key.length then none
  else
    let segment := (s.currKey + key.length) / segmentSize
    let offset := if s.currKey / segmentSize ≠ segment then segment * segmentSize else s.currKey
    some { s.setEntry id { e with key := writeNat e.key 0 g.offsetSize offset } with
      currKey := offset + key.length
      keys := write s.keys offset key }

/-- `grn_hash_entry_put_key`. -/
def entryPutKey (g : Config) (s : GrnHash) (id hashValue : ℕ) (key : List UInt8) : Option GrnHash :=
  if g.varSize then
    let finish (flag : ℕ) (s : GrnHash) : GrnHash :=
      s.setEntry id { s.entries id with flag := flag, word := hashValue, keySize := key.length }
    if key.length ≤ g.bufSize then
      some (finish 1 (s.setEntry id { s.entries id with key := write (s.entries id).key 0 key }))
    else if g.io then (ioEntryPutKey g s id key).map (finish 0)
    else some (finish 0 (s.setEntry id { s.entries id with pointed := key }))
  else if g.keySize = 4 then some (s.setEntry id { s.entries id with word := hashValue })
  else
    some (s.setEntry id { s.entries id with
      word := hashValue
      key := write (s.entries id).key 0 key })

/-! ## Steps

Each of these is also what the recovery does for an entry of the log. -/

/-- `grn_io_hash_reuse_entry`. -/
def ioHashReuseEntry (s : GrnHash) (id i : ℕ) (foundGarbage : Bool) : GrnHash :=
  let s := s.setIdx i id
  { s with
    nGarbages := if foundGarbage then s.nGarbages - 1 else s.nGarbages
    nEntries := s.nEntries + 1 }

/-- `grn_io_hash_reset_entry`. -/
def ioHashResetEntry (g : Config) (s : GrnHash) (id keySize nextGarbage : ℕ) : GrnHash :=
  let s := s.setGarbages (g.garbageIndex keySize) nextGarbage
  if g.varSize then s.setEntry id { s.entries id with value := fun _ => 0 }
  else s.setEntry id Entry.zero

/-- `grn_io_hash_add_entry`. -/
def ioHashAddEntry (s : GrnHash) (id i : ℕ) : GrnHash :=
  { s.setIdx i id with currRec := id, nEntries := s.nEntries + 1 }

/-- `grn_io_hash_enable_entry`. -/
def ioHashEnableEntry (s : GrnHash) (id : ℕ) : GrnHash :=
  { s with bitmap := Function.update s.bitmap id true }

/-- `grn_hash_delete_entry`. -/
def hashDeleteEntry (g : Config) (s : GrnHash) (id keySize i : ℕ) : GrnHash :=
  let s := s.setIdx i garbage
  let s := s.setEntry id { s.entries id with word := s.garbages (g.garbageIndex keySize) }
  let s := s.setGarbages (g.garbageIndex keySize) id
  { s with
    bitmap := Function.update s.bitmap id false
    nGarbages := s.nGarbages + 1
    nEntries := s.nEntries - 1 }

/-- `grn_hash_set_value_raw`. -/
def hashSetValueRaw (g : Config) (s : GrnHash) (id : ℕ) (value : List UInt8) : GrnHash :=
  s.setEntry id { s.entries id with value := write (s.entries id).value 0 (value.take g.valueSize) }

end Groonga.Hash
