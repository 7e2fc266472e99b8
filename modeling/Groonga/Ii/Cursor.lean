import Groonga.Ii.BufferChain

/-!
# The cursor of a term

`grn_ii_cursor` reads the postings of a term in the order of the records and the sections. They
are in two places: in chunks, where ids and positions are written as gaps, and in the chain of
the write buffer, whose records replace or delete what the chunks say. `next` keeps the next
posting of each place at hand and returns the smaller one.

A cursor can be told to go on from a record id. In the buffer it follows jumps then. Of the
chunks it knows how far each reaches from a table of gaps, and it leaves out the ones that end
below the id.

A term with a single posting has no buffer. Its posting is in the lexicon array.
-/

namespace Groonga.Ii

open Groonga.Lib

/-- What a cursor returns: a posting with its positions. -/
structure Hit where
  docid : Docid
  tf : ℕ
  weight : ℕ
  pos : List ℕ
deriving DecidableEq, Repr

/-! ## Where the postings are -/

/-- What the unpacked vectors of a chunk hold for a posting: the gap of its record, that of its
section and its frequency less one, its weight and the gaps of its positions. -/
structure Entry where
  dgap : ℕ
  sgap : ℕ
  tf : ℕ
  weight : ℕ
  pos : List ℕ
deriving DecidableEq, Repr

/-- A split chunk with its gap in the table `cinfo`. -/
structure SplitChunk where
  dgap : ℕ
  entries : List Entry
deriving DecidableEq, Repr

/-- What the buffer term leads to: the split chunks, the postings behind their table and the
records. -/
structure Stored where
  chunks : List SplitChunk
  tail : List Entry
  recs : WriteBuffer.Recs
  posInBuffer : ℕ

/-- The vectors that are unpacked one after another: those of the split chunks and of what is
behind their table. -/
def Stored.loads (s : Stored) : List (List Entry) :=
  s.chunks.map (·.entries) ++ if s.tail = [] then [] else [s.tail]

/-- A term of the lexicon array: its only posting, or a buffer term. -/
inductive Term where
  | sole (rid sid pos : ℕ)
  | stored (s : Stored)

/-! ## The state of a cursor -/

/-- `grn_posting_internal`, with the gaps of the positions that are still to be read. -/
structure Internal where
  rid : ℕ
  sid : ℕ
  tf : ℕ
  weight : ℕ
  pos : ℕ
  rest : ℕ
  gaps : List ℕ
deriving DecidableEq, Repr

def Internal.nil : Internal := ⟨0, 0, 0, 0, 0, 0, []⟩

/-- Which of its two postings a cursor returned. -/
inductive Side where
  | chunk
  | buffer
deriving DecidableEq, Repr

/-- `grn_ii_cursor` of a term with a buffer. The scale of the sections is left out: it is 1
unless the caller sets one. -/
structure StoredCursor where
  src : Stored
  min : ℕ
  pc : Internal
  pb : Internal
  /-- From `crp` on to the end of the unpacked vectors. -/
  crp : List Entry
  currChunk : ℕ
  prevChunkRid : ℕ
  chunkUsed : Bool
  bufferUsed : Bool
  solePosUsed : Bool
  nextb : ℕ
  post : Option Side

/-- `grn_ii_cursor`. -/
inductive Cursor where
  | sole (rid sid pos min : ℕ) (soleDocUsed solePosUsed : Bool)
  | stored (c : StoredCursor)

namespace StoredCursor

variable (ii : Layout)

/-! ## Opening -/

/-- The loop over the table of the chunks: those that end below `min` are passed. -/
def openChunks (min : ℕ) : List SplitChunk → (i crid : ℕ) → ℕ × ℕ → ℕ × ℕ
  | [], _, _, at_ => at_
  | x :: xs, i, crid, at_ =>
    let crid := crid + x.dgap
    openChunks min xs (i + 1) crid (if crid < min then (i + 1, crid) else at_)

/-- `grn_ii_cursor_open`. -/
def open' (s : Stored) (min : ℕ) : StoredCursor :=
  let (currChunk, rid) := openChunks min s.chunks 0 0 (0, 0)
  { src := s
    min := min
    pc := { Internal.nil with rid := rid }
    pb := .nil
    crp := []
    currChunk := currChunk
    prevChunkRid := 0
    chunkUsed := true
    bufferUsed := true
    solePosUsed := false
    nextb := s.posInBuffer
    post := none }

/-! ## The next posting of the chunks -/

/-- The posting that the vectors hold next. -/
def readEntry (pc : Internal) (e : Entry) : Internal where
  rid := pc.rid + e.dgap
  sid := if ii.withSection then (if e.dgap = 0 then pc.sid else 0) + (1 + e.sgap) else 1
  tf := 1 + e.tf
  weight := if ii.withWeight then e.weight else 0
  pos := 0
  rest := 1 + e.tf
  gaps := e.pos

/-- The vectors are read on to a posting that is not below `min`. -/
def scan (min : ℕ) : List Entry → Internal → Internal × List Entry × Bool
  | [], pc => (pc, [], false)
  | e :: es, pc =>
    let pc := readEntry ii pc e
    if pc.rid < min then scan min es pc else (pc, es, true)

/-- The loop over the chunks, of which `loads` are still to be unpacked. -/
def chunkLoop (c : StoredCursor) : List (List Entry) → StoredCursor
  | [] =>
    match scan ii c.min c.crp c.pc with
    | (pc, es, true) => { c with pc := pc, crp := es }
    | (pc, _, false) => { c with pc := { pc with rid := 0 }, crp := [] }
  | l :: ls =>
    match scan ii c.min c.crp c.pc with
    | (pc, es, true) => { c with pc := pc, crp := es }
    | (pc, _, false) => chunkLoop
        { c with
          prevChunkRid := pc.rid, pc := { pc with rid := 0, sid := 0, rest := 0 }, crp := l,
          currChunk := c.currChunk + 1 } ls

def nextInChunk (c : StoredCursor) : StoredCursor :=
  chunkLoop ii c (c.src.loads.drop c.currChunk)

/-! ## The next posting of the buffer -/

/-- The posting of a record. -/
def readRec (r : WriteBuffer.BufferRec) : Internal where
  rid := r.docid.rid
  sid := r.docid.sid
  tf := r.posting.tf
  weight := r.posting.weight
  pos := 0
  rest := r.posting.tf
  gaps := WriteBuffer.posGaps 0 r.posting.pos

/-- The loop over the records. -/
def nextInBuffer (c : StoredCursor) : Option StoredCursor := do
  let r ← WriteBuffer.seek c.src.recs c.min (2 ^ 16 + 1) c.nextb
  if r = 0 then return { c with nextb := 0, pb := { c.pb with rid := 0 } }
  else return { c with nextb := (c.src.recs r).step, pb := readRec (c.src.recs r) }

/-! ## The next posting -/

/-- A posting that is not a mark of a deletion. -/
def visible (p : Internal) : Bool := p.tf ≠ 0 && p.sid ≠ 0

/-- Which of the two postings is used up, and which of them is returned, if any is. -/
structure Choice where
  chunkUsed : Bool
  bufferUsed : Bool
  post : Option Side

/-- The comparison of the two postings; `none` when there are none. -/
def choose (pc pb : Internal) : Option Choice :=
  if pb.rid ≠ 0 then
    if pc.rid ≠ 0 then
      if pc.rid < pb.rid then
        some ⟨true, false, if visible pc then some .chunk else none⟩
      else if pb.rid < pc.rid then
        some ⟨false, true, if visible pb then some .buffer else none⟩
      else if pb.sid ≠ 0 then
        if pc.sid < pb.sid then some ⟨true, false, if visible pc then some .chunk else none⟩
        else some ⟨pb.sid = pc.sid, true, if pb.tf ≠ 0 then some .buffer else none⟩
      else some ⟨true, false, none⟩
    else some ⟨false, true, if visible pb then some .buffer else none⟩
  else if pc.rid ≠ 0 then some ⟨true, false, if visible pc then some .chunk else none⟩
  else none

/-- The postings at hand: each place whose posting was used up is asked for the next one. -/
def refill (c : StoredCursor) : Option StoredCursor :=
  let c := if c.chunkUsed then nextInChunk ii c else c
  if c.bufferUsed then nextInBuffer c else some c

/-- The loop of `grn_ii_cursor_next_internal`; the outer `none` is a loop that does not end. -/
def nextLoop : ℕ → StoredCursor → Option (Option StoredCursor)
  | 0, _ => none
  | fuel + 1, c => do
    let c ← refill ii c
    match choose c.pc c.pb with
    | none => return none
    | some d =>
      let c := { c with chunkUsed := d.chunkUsed, bufferUsed := d.bufferUsed, solePosUsed := false }
      match d.post with
      | some side => return some { c with post := some side }
      | none => nextLoop fuel c

/-- Rounds that are enough: each uses up a posting. -/
def rounds (s : Stored) : ℕ := (s.loads.map List.length).sum + 2 ^ 16 + 1

def next (c : StoredCursor) : Option (Option StoredCursor) := nextLoop ii (rounds c.src) c

/-- `c->post`. -/
def posting (c : StoredCursor) : Option Internal :=
  c.post.map fun
    | .chunk => c.pc
    | .buffer => c.pb

/-- The next position of a posting. -/
def advancePos (p : Internal) : Option Internal :=
  if p.rest = 0 then none
  else some { p with
    rest := p.rest - 1, pos := (p.pos + p.gaps.headD 0) % 2 ^ 32, gaps := p.gaps.tail }

/-- `grn_ii_cursor_next_pos`, for a cursor that unpacks all the elements. -/
def nextPos (c : StoredCursor) : Option StoredCursor :=
  if ii.withPosition then
    match c.post with
    | some .chunk => (advancePos c.pc).map fun p => { c with pc := p }
    | some .buffer => (advancePos c.pb).map fun p => { c with pb := p }
    | none => none
  else if c.solePosUsed then none
  else some { c with solePosUsed := true }

/-! ## Skipping -/

/-- The loop over the table from the chunk `i` on: how many chunks are passed, and where the
last of them ends by the table. -/
def skipChunks (min : ℕ) : List SplitChunk → (i rid skipChunk : ℕ) → ℕ × ℕ
  | [], _, rid, skipChunk => (skipChunk, rid)
  | x :: xs, i, rid, skipChunk =>
    if rid + x.dgap < min then skipChunks min xs (i + 1) (rid + x.dgap) (i + 1)
    else (skipChunk, rid)

/-- `grn_ii_cursor_set_min`. -/
def setMin (c : StoredCursor) (min : ℕ) : StoredCursor :=
  if min ≤ c.min then c
  else
    let c := { c with min := min }
    if c.pc.rid ≠ 0 ∧ c.pc.rid < min ∧ c.prevChunkRid < min ∧
        c.currChunk < c.src.chunks.length then
      let i := c.currChunk - 1
      let (skipChunk, rid) := skipChunks min (c.src.chunks.drop i) i c.prevChunkRid 0
      if c.currChunk < skipChunk then
        { c with
          pc := { c.pc with rid := rid, rest := 0 }
          prevChunkRid := rid - ((c.src.chunks[skipChunk - 1]?).map (·.dgap)).getD 0
          currChunk := skipChunk
          crp := []
          chunkUsed := true }
      else c
    else c

end StoredCursor

/-! ## Cursors of either kind -/

namespace Cursor

variable (ii : Layout)

/-- `grn_ii_cursor_open`. -/
def open' (min : ℕ) : Term → Cursor
  | .sole rid sid pos => .sole rid sid pos min false false
  | .stored s => .stored (StoredCursor.open' s min)

/-- `grn_ii_cursor_next`: the cursor when a posting is returned. -/
def next : Cursor → Option (Option Cursor)
  | .sole rid sid pos min docUsed posUsed =>
    some (if docUsed then none else if rid < min then none
      else some (.sole rid sid pos min true posUsed))
  | .stored c => (c.next ii).map fun r => r.map .stored

/-- `grn_ii_cursor_next_pos`. -/
def nextPos : Cursor → Option Cursor
  | .sole rid sid pos min docUsed posUsed =>
    if posUsed then none else some (.sole rid sid pos min docUsed true)
  | .stored c => (c.nextPos ii).map .stored

/-- `grn_ii_cursor_set_min`. -/
def setMin (c : Cursor) (min : ℕ) : Cursor :=
  match c with
  | .sole rid sid pos min' docUsed posUsed =>
    .sole rid sid pos (if min ≤ min' then min' else min) docUsed posUsed
  | .stored c => .stored (c.setMin min)

/-- `c->post` with its current position. -/
def docid : Cursor → Docid
  | .sole rid sid _ _ _ _ => ⟨rid, sid⟩
  | .stored c => (c.posting.map fun p => ⟨p.rid, p.sid⟩).getD ⟨0, 0⟩

def pos : Cursor → ℕ
  | .sole _ _ pos _ _ _ => pos
  | .stored c => (c.posting.map Internal.pos).getD 0

end Cursor

end Groonga.Ii
