import Groonga.Lib.Chain
import Groonga.Lib.Memory
import Mathlib

/-!
# Tables without keys

A `grn_array` has a bit for each id, which says whether the record is live. The id of a deleted
record is handed out again. When a value has room for an id, the deleted records are linked by
their values. Otherwise the header remembers one deleted id and five more in a buffer; ids that
find no room there are forgotten, and come back when the bit of such an id is read: every read of a
bit that is off puts the id into the buffer.

That read does not look whether the id is in the buffer already, nor whether it was ever handed
out. So a lookup can make two additions return one id.
-/

namespace Groonga.Table

open Lib

/-! ## The array -/

/-- `grn_array_header`. -/
structure ArrayHeader where
  currRec : ℕ
  nEntries : ℕ
  nGarbages : ℕ
  garbages : ℕ
  nGarbagesInBuffer : ℕ
  garbagesBuffer : List ℕ
deriving DecidableEq, Repr

/-- `grn_array` with a `grn_io`: the header, the bitmap with the segments of it that exist, and the
values. -/
structure GrnArray where
  valueSize : ℕ
  header : ArrayHeader
  bits : ℕ → Bool
  segments : ℕ → Bool
  values : ℕ → ℕ → UInt8

/-- `GRN_ARRAY_GARBAGES_BUFFER_SIZE`. -/
def garbagesBufferSize : ℕ := 5

/-- `GRN_ARRAY_MAX`. -/
def arrayMax : ℕ := 0x3fffffff - 8

/-- `grn_array_init_io_array`. -/
def arrayCreate (valueSize : ℕ) : GrnArray where
  valueSize := valueSize
  header := ⟨0, 0, 0, 0, 0, List.replicate garbagesBufferSize 0⟩
  bits := fun _ => false
  segments := fun _ => false
  values := fun _ _ => 0

/-- `grn_array_can_use_value_for_garbage`. -/
def GrnArray.canUseValueForGarbage (s : GrnArray) : Bool := decide (4 ≤ s.valueSize)

/-- The first free slot of the buffer gets the id. -/
def putToBuffer (id : ℕ) : List ℕ → Option (List ℕ)
  | [] => none
  | b :: bs => if b = 0 then some (id :: bs) else (putToBuffer id bs).map (b :: ·)

/-- The first id of the buffer is taken. -/
def takeFromBuffer : List ℕ → Option (ℕ × List ℕ)
  | [] => none
  | b :: bs => if b ≠ 0 then some (b, 0 :: bs) else (takeFromBuffer bs).map fun r => (r.1, b :: r.2)

/-- The first part of `grn_array_put_garbage_to_buffer`: the remembered id goes to the buffer. -/
def ArrayHeader.makeRoom (h : ArrayHeader) : ArrayHeader :=
  if h.garbages ≠ 0 ∧ h.nGarbagesInBuffer < garbagesBufferSize then
    match putToBuffer h.garbages h.garbagesBuffer with
    | some buffer =>
      { h with garbagesBuffer := buffer, nGarbagesInBuffer := h.nGarbagesInBuffer + 1, garbages := 0 }
    | none => h
  else h

/-- `grn_array_put_garbage_to_buffer`. -/
def ArrayHeader.putGarbageToBuffer (h : ArrayHeader) (id : ℕ) : ArrayHeader :=
  let h := h.makeRoom
  if h.garbages = 0 then { h with garbages := id } else h

/-- The segment of the bitmap with the bit of an id. -/
def bitmapSegment (id : ℕ) : ℕ := (id / 8 + 1) / 0x400000

/-- `array_spec[GRN_ARRAY_BITMAP_SEGMENT].max_n_segments`. -/
def maxBitmapSegments : ℕ := 32

/-- `grn_io_array_bit_at`: nothing if there is no segment for the bit. -/
def GrnArray.bitAt (s : GrnArray) (id : ℕ) : Option Bool :=
  if bitmapSegment id < maxBitmapSegments ∧ s.segments (bitmapSegment id) then some (s.bits id) else none

/-- `grn_array_bitmap_at`. -/
def GrnArray.bitmapAt (s : GrnArray) (id : ℕ) : Option Bool × GrnArray :=
  let bit := s.bitAt id
  if bit = some false ∧ ¬ s.canUseValueForGarbage then
    (bit, { s with header := s.header.putGarbageToBuffer id })
  else (bit, s)

/-- `grn_io_array_bit_on` with a segment for the bit. -/
def GrnArray.bitOn (s : GrnArray) (id : ℕ) : GrnArray :=
  { s with
    bits := Function.update s.bits id true
    segments := Function.update s.segments (bitmapSegment id) true }

/-- `grn_io_array_bit_off` with a segment for the bit. -/
def GrnArray.bitOff (s : GrnArray) (id : ℕ) : GrnArray :=
  { s with
    bits := Function.update s.bits id false
    segments := Function.update s.segments (bitmapSegment id) true }

/-- `*((grn_id *)entry)`. -/
def GrnArray.link (s : GrnArray) (id : ℕ) : ℕ := readNat (s.values id) 0 4

/-- `*((grn_id *)entry) = link`. -/
def GrnArray.setLink (s : GrnArray) (id link : ℕ) : GrnArray :=
  { s with values := Function.update s.values id (writeNat (s.values id) 0 4 link) }

/-! ## Lookups -/

/-- `grn_array_get_value_inline`: the bytes of the value. -/
def GrnArray.getValue (s : GrnArray) (id : ℕ) : Option (List UInt8) × GrnArray :=
  if s.header.nGarbages ≠ 0 then
    match s.bitmapAt id with
    | (some true, s) => (some (read (s.values id) 0 s.valueSize), s)
    | (_, s) => (none, s)
  else if id = 0 ∨ s.header.currRec < id then (none, s)
  else (some (read (s.values id) 0 s.valueSize), s)

/-- `grn_array_at`. -/
def GrnArray.at' (s : GrnArray) (id : ℕ) : ℕ × GrnArray :=
  if s.header.nGarbages ≠ 0 then
    match s.bitmapAt id with
    | (some true, s) => (id, s)
    | (_, s) => (0, s)
  else if s.header.currRec < id then (0, s)
  else (id, s)

/-- `grn_array_set_value` with `GRN_OBJ_SET`. -/
def GrnArray.setValue (s : GrnArray) (id : ℕ) (value : List UInt8) : GrnArray :=
  let put (s : GrnArray) : GrnArray :=
    { s with values := Function.update s.values id (write (s.values id) 0 (value.take s.valueSize)) }
  if s.header.nGarbages ≠ 0 then
    match s.bitmapAt id with
    | (some true, s) => put s
    | (_, s) => s
  else if id = 0 ∨ s.header.currRec < id then s
  else put s

/-! ## Deletions and additions -/

/-- `grn_array_delete_by_id` after the bit was found. -/
def GrnArray.deleteLive (s : GrnArray) (id : ℕ) : GrnArray :=
  let s :=
    if s.canUseValueForGarbage then
      { s.setLink id s.header.garbages with header := { s.header with garbages := id } }
    else { s with header := s.header.putGarbageToBuffer id }
  let s := { s with header := { s.header with
    nEntries := s.header.nEntries - 1, nGarbages := s.header.nGarbages + 1 } }
  s.bitOff id

/-- `grn_array_delete_by_id`. The write ahead log may fail to be touched. -/
def GrnArray.deleteById (s : GrnArray) (id : ℕ) (touchFails : Bool) : Bool × GrnArray :=
  match s.bitmapAt id with
  | (some true, s) => if touchFails then (false, s) else (true, s.deleteLive id)
  | (_, s) => (false, s)

/-- What may fail for an addition: the write ahead log, the segment of the value, and the segment of
the bit. -/
structure Failures where
  touch : Bool
  entry : Bool
  bit : Bool
deriving DecidableEq, Repr

/-- `n--` for a `uint32_t`. -/
def decrement (n : ℕ) : ℕ := if n = 0 then 0xffffffff else n - 1

/-- The next deleted record is taken from the buffer. -/
def ArrayHeader.refill (h : ArrayHeader) : ArrayHeader :=
  if 0 < h.nGarbages ∧ 0 < h.nGarbagesInBuffer then
    match takeFromBuffer h.garbagesBuffer with
    | some (garbage, buffer) =>
      { h with
        garbages := garbage
        garbagesBuffer := buffer
        nGarbagesInBuffer := h.nGarbagesInBuffer - 1 }
    | none => h
  else h

/-- The remembered id is taken. -/
def ArrayHeader.takeGarbage (h : ArrayHeader) : ArrayHeader :=
  ArrayHeader.refill { h with garbages := 0, nGarbages := decrement h.nGarbages }

/-- `grn_array_add_to_io_array` with the first deleted record. -/
def GrnArray.reuse (s : GrnArray) (id : ℕ) (f : Failures) : ℕ × GrnArray :=
  if f.entry then (0, s)
  else if s.canUseValueForGarbage then
    if f.bit then
      -- the value was cleared, but for the link
      let s' := { s with values := Function.update s.values id fun _ => 0 }
      (0, s'.setLink id (s.link id))
    else
      let s := { s with
        header := { s.header with
          garbages := s.link id
          nGarbages := decrement s.header.nGarbages
          nEntries := s.header.nEntries + 1 }
        values := Function.update s.values id fun _ => 0 }
      (id, s.bitOn id)
  else if f.bit then (0, s)
  else
    let h := s.header.takeGarbage
    (id, { s.bitOn id with header := { h with nEntries := h.nEntries + 1 } })

/-- `grn_array_add_to_io_array` with a new record. -/
def GrnArray.addNew (s : GrnArray) (f : Failures) : ℕ × GrnArray :=
  if arrayMax ≤ s.header.currRec then (0, s)
  else
    let id := s.header.currRec + 1
    if f.bit then (0, s)
    else if f.entry then (0, (s.bitOn id).bitOff id)
    else
      let s := s.bitOn id
      (id, { s with header := { s.header with currRec := id, nEntries := s.header.nEntries + 1 } })

/-- `grn_array_add_to_io_array`. -/
def GrnArray.add (s : GrnArray) (f : Failures) : ℕ × GrnArray :=
  if f.touch then (0, s)
  else if s.header.garbages ≠ 0 then s.reuse s.header.garbages f
  else s.addNew f

/-! ## Cursors -/

/-- `grn_array_cursor`. -/
structure ArrayCursor where
  currRec : ℕ
  tail : ℕ
  rest : ℕ
  descending : Bool
deriving DecidableEq, Repr

/-- The limits of a cursor: `min`, `max`, `offset`, `limit` and the flags. -/
structure CursorArgs where
  min : ℕ
  max : ℕ
  offset : ℤ
  limit : ℤ
  descending : Bool
  gt : Bool
  lt : Bool
deriving DecidableEq, Repr

/-- A `uint32_t`. -/
def toUint32 (n : ℤ) : ℕ := (n % 0x100000000).toNat

/-- `cursor->dir`. -/
def cursorDir (descending : Bool) : ℤ := if descending then -1 else 1

/-- `cursor->curr_rec` and `cursor->tail` before records are skipped. -/
def GrnArray.cursorRange (s : GrnArray) (a : CursorArgs) : ℕ × ℕ :=
  if a.descending then
    let currRec :=
      if a.max ≠ 0 then toUint32 (a.max + (if a.lt then 0 else 1)) else s.header.currRec + 1
    let tail := if a.min ≠ 0 then toUint32 (a.min + (if a.gt then 1 else 0)) else 1
    (currRec, if currRec < tail then currRec else tail)
  else
    let currRec := if a.min ≠ 0 then (if a.gt then a.min else a.min - 1) else 0
    let tail := if a.max ≠ 0 then (if a.lt then a.max - 1 else a.max) else s.header.currRec
    (currRec, if tail < currRec then currRec else tail)

/-- The loop of `grn_array_cursor_open` that skips records. -/
def skipLoop (tail : ℕ) (dir : ℤ) : ℕ → ℤ → ℕ → GrnArray → ℕ × GrnArray
  | 0, _, currRec, s => (currRec, s)
  | fuel + 1, offset, currRec, s =>
    if offset = 0 ∨ currRec = tail then (currRec, s)
    else
      let currRec := toUint32 (currRec + dir)
      match s.bitmapAt currRec with
      | (some true, s) => skipLoop tail dir fuel (offset - 1) currRec s
      | (_, s) => skipLoop tail dir fuel offset currRec s

/-- `grn_array_cursor_open`. A `uint32_t` reaches every number within `1 << 32` steps. -/
def GrnArray.cursorOpen (s : GrnArray) (a : CursorArgs) : ArrayCursor × GrnArray :=
  let (currRec, tail) := s.cursorRange a
  let (currRec, s) :=
    if s.header.nGarbages ≠ 0 then
      skipLoop tail (cursorDir a.descending) 0x100000000 a.offset currRec s
    else (toUint32 (currRec + cursorDir a.descending * a.offset), s)
  let rest := if a.limit < 0 then s.header.nEntries else a.limit.toNat
  (⟨currRec, tail, rest, a.descending⟩, s)

/-- The loop of `grn_array_cursor_next`: where it ends, and whether at a record. -/
def nextLoop (tail : ℕ) (dir : ℤ) : ℕ → ℕ → GrnArray → Bool × ℕ × GrnArray
  | 0, currRec, s => (false, currRec, s)
  | fuel + 1, currRec, s =>
    if currRec = tail then (false, currRec, s)
    else
      let currRec := toUint32 (currRec + dir)
      if s.header.nGarbages = 0 then (true, currRec, s)
      else
        match s.bitmapAt currRec with
        | (some true, s) => (true, currRec, s)
        | (_, s) => nextLoop tail dir fuel currRec s

/-- `grn_array_cursor_next`. -/
def GrnArray.cursorNext (s : GrnArray) (c : ArrayCursor) : ℕ × ArrayCursor × GrnArray :=
  if c.rest = 0 then (0, c, s)
  else
    match nextLoop c.tail (cursorDir c.descending) 0x100000000 c.currRec s with
    | (true, currRec, s) => (currRec, { c with currRec := currRec, rest := c.rest - 1 }, s)
    | (false, currRec, s) => (0, { c with currRec := currRec }, s)

end Groonga.Table
