import Groonga.Ja.Basic

/-!
# Setting values

A value is put to a new place, the element info of the record is set, and the old place is given
back. Each of these is several steps, and each step can fail when its entry cannot be added to the
log. The element info on the stack is not initialized: its first content is an argument.
-/

namespace Groonga.Ja

open Lib

/-! ## Free segments -/

/-- The loop of `grn_ja_find_free_segment`. -/
def findFreeFrom (h : Header) : ℕ → ℕ → ℕ
  | 0, seg => seg
  | fuel + 1, seg => if h.segmentInfos seg = 0 then seg else findFreeFrom h fuel (seg + 1)

/-- `grn_ja_find_free_segment`. -/
def findFreeSegment (g : Config) (h : Header) : ℕ := findFreeFrom h g.nDataSegments 0

/-! ## Giving a place back -/

/-- `grn_ja_free_huge`. -/
def freeHugeLoop (g : Config) : ℕ → ℕ → Ctx → Ctx
  | 0, _, c => c
  | n + 1, segment, c =>
    match c.perform g (.freeHuge segment) with
    | (false, c) => c
    | (true, c) => freeHugeLoop g n (segment + 1) c

/-- The loop of `grn_ja_free_chunk`: the previous garbage info and the first one that has room. -/
def findRoom (g : Config) (s : GrnJa) : ℕ → ℕ → ℕ → ℕ × Option ℕ
  | 0, previous, _ => (previous, none)
  | fuel + 1, previous, current =>
    if current = 0 then (previous, none)
    else if (ginfo (s.memory current)).nrecs < g.nGarbagesInASegment then (previous, some current)
    else findRoom g s fuel current (ginfo (s.memory current)).next

/-- A garbage info with room for a chunk of the size. -/
def garbageSegmentFor (g : Config) (c : Ctx) (size : ℕ) : Option ℕ × Ctx :=
  match findRoom g c.ja (g.nDataSegments + 1) 0 (c.ja.header.garbages (chunkVariation size)) with
  | (_, some current) => (some current, c)
  | (previous, none) =>
    let segment := findFreeSegment g c.ja.header
    if segment = g.nDataSegments then (none, { c with rc := .notEnoughSpace })
    else
      match c.perform g (.newGinfo size segment previous) with
      | (false, c) => (none, c)
      | (true, c) => (some segment, c)

/-- `grn_ja_free_chunk`. -/
def freeChunk (g : Config) (c : Ctx) (segment position size : ℕ) : Ctx :=
  match garbageSegmentFor g c size with
  | (none, c) => c
  | (some current, c) =>
    let info := ginfo (c.ja.memory current)
    (c.perform g (.useGinfo size segment position current ((info.head + 1) % g.nGarbagesInASegment)
      (info.nrecs + 1) ((c.ja.header.nGarbages (chunkVariation size) + 1) % 0x100000000))).2

/-- `grn_ja_free_sequential`. -/
def freeSequential (g : Config) (c : Ctx) (segment position size : ℕ) : Ctx :=
  let info := c.ja.header.segmentInfos segment
  (c.perform g (.freeSequential size segment position
    ((info + 0x100000000 - computeSequenceAlignedDataSize size) % 0x100000000))).2

/-- `grn_ja_free`. -/
def free (g : Config) (c : Ctx) (e : ℕ) : Ctx :=
  if etinyP e then c
  else if ehugeP e then
    freeHugeLoop g (computeHugeNSegments (ehugeDec e).2) (ehugeDec e).1 c
  else
    let (segment, position, size) := einfoDec e
    if size = 0 then c
    else if g.detectElementType size = .chunk then freeChunk g c segment position size
    else freeSequential g c segment position size

/-! ## A new place -/

/-- `iw->addr`. -/
inductive Target where
  | none
  | tiny
  | within (seg pos : ℕ)
  | huge (seg : ℕ)
deriving DecidableEq, Repr

/-- What `grn_ja_alloc` returns: success, the element info and where the value goes. -/
structure Alloc where
  ok : Bool
  einfo : ℕ
  target : Target
deriving DecidableEq, Repr

/-- `JA_N_GARBAGES_TH`. -/
def nGarbagesTh : ℕ := 10

/-- The loop of `grn_ja_alloc_chunk_garbage`: the previous garbage info and the first one from
which a chunk is taken. -/
def findReusable (s : GrnJa) : ℕ → ℕ → ℕ → Option (ℕ × ℕ)
  | 0, _, _ => none
  | fuel + 1, previous, current =>
    if current = 0 then none
    else
      let info := ginfo (s.memory current)
      if info.next ≠ 0 ∨ nGarbagesTh < info.nrecs then some (previous, current)
      else findReusable s fuel current info.next

/-- The first chunk of a garbage info is taken. A garbage info that has no more chunks is given
back. -/
def reuseChunk (g : Config) (c : Ctx) (size einfo previous current : ℕ) : Alloc × Ctx :=
  let info := ginfo (c.ja.memory current)
  let chunk := info.recs info.tail
  let nRecords := (info.nrecs + 0x100000000 - 1) % 0x100000000
  let nGarbages := (c.ja.header.nGarbages (chunkVariation size) + 0x100000000 - 1) % 0x100000000
  match c.perform g (.reuse size chunk.seg chunk.pos current ((info.tail + 1) % g.nGarbagesInASegment)
    nRecords nGarbages previous info.next) with
  | (false, c) => (⟨false, einfo, .none⟩, c)
  | (true, c) =>
    let einfo := einfoEnc chunk.seg chunk.pos size
    if nRecords = 0 then
      match c.perform g (.freeGinfo size chunk.seg current previous info.next) with
      | (false, c) => (⟨false, einfo, .none⟩, c)
      | (true, c) => (⟨true, einfo, .within chunk.seg chunk.pos⟩, c)
    else (⟨true, einfo, .within chunk.seg chunk.pos⟩, c)

/-- The next chunk of the segment from which the chunks of the size are taken. -/
def useChunk (g : Config) (c : Ctx) (size einfo : ℕ) : Alloc × Ctx :=
  let vp := c.ja.header.freeElements (chunkVariation size)
  let chunkSize := 2 ^ computeChunkMsb size
  let next : Pos := if vp.pos + chunkSize = segmentSize then ⟨0, 0⟩ else ⟨vp.seg, vp.pos + chunkSize⟩
  match c.perform g (.useChunk size next.seg next.pos) with
  | (false, c) => (⟨false, einfo, .none⟩, c)
  | (true, c) => (⟨true, einfoEnc vp.seg vp.pos size, .within vp.seg vp.pos⟩, c)

/-- The rest of `grn_ja_alloc_chunk` when no chunk is used again. -/
def newChunk (g : Config) (c : Ctx) (size einfo : ℕ) : Alloc × Ctx :=
  if (c.ja.header.freeElements (chunkVariation size)).seg = 0 then
    let seg := findFreeSegment g c.ja.header
    if seg = g.nDataSegments then (⟨false, einfo, .none⟩, { c with rc := .noMemoryAvailable })
    else
      match c.perform g (.newChunk size seg) with
      | (false, c) => (⟨false, einfo, .none⟩, c)
      | (true, c) => useChunk g c size einfo
  else useChunk g c size einfo

/-- `grn_ja_alloc_chunk`. -/
def allocChunk (g : Config) (c : Ctx) (size einfo : ℕ) : Alloc × Ctx :=
  let variation := chunkVariation size
  if nGarbagesTh < c.ja.header.nGarbages variation then
    match findReusable c.ja (g.nDataSegments + 1) 0 (c.ja.header.garbages variation) with
    | some (previous, current) => reuseChunk g c size einfo previous current
    | none => newChunk g c size einfo
  else newChunk g c size einfo

/-- The value is put behind the last one of the segment. -/
def useSequential (g : Config) (c : Ctx) (id size einfo segment position : ℕ) : Alloc × Ctx :=
  let info := c.ja.header.segmentInfos segment + computeSequenceAlignedDataSize size
  match c.perform g (.useSequential id size segment position info) with
  | (false, c) => (⟨false, einfo, .none⟩, c)
  | (true, c) => (⟨true, einfoEnc segment (position + 4) size, .within segment (position + 4)⟩, c)

/-- `grn_ja_alloc_sequential`. -/
def allocSequential (g : Config) (c : Ctx) (id size einfo : ℕ) : Alloc × Ctx :=
  if segmentSize < c.ja.header.currPos + (size + 4) then
    let segment := findFreeSegment g c.ja.header
    if segment = g.nDataSegments then (⟨false, einfo, .none⟩, { c with rc := .noMemoryAvailable })
    else
      match c.perform g (.newSequential segment) with
      | (false, c) => (⟨false, einfo, .none⟩, c)
      | (true, c) => useSequential g c id size einfo segment 0
  else useSequential g c id size einfo c.ja.header.currSeg c.ja.header.currPos

/-- The search of `grn_ja_alloc_huge`: where it ends, and the last segment that is used. -/
def hugeLoop (h : Header) (nSegments : ℕ) : ℕ → ℕ → ℕ → ℕ × ℕ
  | 0, i, last => (i, last)
  | fuel + 1, i, last =>
    if h.segmentInfos i ≠ 0 then hugeLoop h nSegments fuel (i + 1) i
    else if i = last + nSegments then (i, last)
    else hugeLoop h nSegments fuel (i + 1) last

/-- The segments from `start` on are given back. -/
def segmentsOff : ℕ → ℕ → GrnJa → GrnJa
  | 0, _, s => s
  | n + 1, start, s => segmentsOff n (start + 1) (hugeSegmentFree s start)

/-- The segments of a huge value, from `j` on. -/
def newHugeLoop (g : Config) : ℕ → ℕ → Ctx → Bool × Ctx
  | 0, _, c => (true, c)
  | n + 1, j, c =>
    match c.perform g (.newHuge j) with
    | (false, c) => (false, c)
    | (true, c) => newHugeLoop g n (j + 1) c

/-- `grn_ja_alloc_huge`. -/
def allocHuge (g : Config) (c : Ctx) (size einfo : ℕ) : Alloc × Ctx :=
  let (i, last) := hugeLoop c.ja.header (computeHugeNSegments size) g.nDataSegments 0 0
  if i = g.nDataSegments then (⟨false, einfo, .none⟩, { c with rc := .notEnoughSpace })
  else
    let start := last + 1
    match newHugeLoop g (i + 1 - start) start c with
    | (false, c) => (⟨false, einfo, .none⟩, { c with ja := segmentsOff (i + 1 - start) start c.ja })
    | (true, c) => (⟨true, ehugeEnc start size, .huge start⟩, c)

/-- `grn_ja_alloc`. -/
def alloc (g : Config) (c : Ctx) (id size einfo : ℕ) : Alloc × Ctx :=
  match g.detectElementType size with
  | .tiny => (⟨true, etinyEnc einfo size, .tiny⟩, c)
  | .chunk => allocChunk g c size einfo
  | .sequential => allocSequential g c id size einfo
  | .huge => allocHuge g c size einfo

/-! ## Values -/

/-- `grn_io_win_unmap` after a value was written to several segments. -/
def winWrite (mem : ℕ → ℕ → UInt8) (seg : ℕ) (value : List UInt8) : ℕ → ℕ → UInt8 := fun x u =>
  if seg ≤ x ∧ u < segmentSize ∧ (x - seg) * segmentSize + u < value.length then
    value.getD ((x - seg) * segmentSize + u) 0
  else mem x u

/-- A value is copied to its place. -/
def copyTo (s : GrnJa) (target : Target) (value : List UInt8) : GrnJa :=
  match target with
  | .within seg pos => s.modify seg fun m => write m pos value
  | .huge seg => { s with memory := winWrite s.memory seg value }
  | .tiny => s
  | .none => s

/-- `grn_io_win_unmap` without a value: what was allocated for several segments is written as it
is. -/
def unmapUnset (s : GrnJa) (target : Target) (size : ℕ) : GrnJa :=
  match target with
  | .huge seg =>
    if segmentSize < size then { s with memory := winWrite s.memory seg (List.replicate size 0) } else s
  | .within _ _ => s
  | .tiny => s
  | .none => s

/-- A value is copied to an element info. -/
def copyToEinfo (e : ℕ) (value : List UInt8) : ℕ := leNat (value ++ (leBytes 8 e).drop value.length)

/-- The entry of the log for a value at its place. -/
def valueEntry (id e offset : ℕ) (value : List UInt8) : Entry :=
  if ehugeP e then .setValue id (ehugeDec e).2 (ehugeDec e).1 offset value
  else .setValue id (einfoDec e).2.2 (einfoDec e).1 ((einfoDec e).2.1 + offset) value

/-- `set_value`, without a ring buffer. The element info is returned also when it fails. -/
def setValue (g : Config) (c : Ctx) (id : ℕ) (value : List UInt8) (einfo : ℕ) : Bool × ℕ × Ctx :=
  if value.length = 0 then (true, 0, c)
  else
    match alloc g c id value.length einfo with
    | (⟨false, einfo, _⟩, c) => (false, einfo, c)
    | (⟨true, einfo, target⟩, c) =>
      if etinyP einfo then (true, copyToEinfo einfo value, c)
      else
        match c.walAddEntry (valueEntry id einfo 0 value) with
        | (false, c) => (false, einfo, { c with ja := unmapUnset c.ja target value.length })
        | (true, c) => (true, einfo, { c with ja := copyTo c.ja target value })

/-- The segment with the element info of a record. -/
def einfoSegmentFor (g : Config) (c : Ctx) (id : ℕ) : Option ℕ × Ctx :=
  let segment := c.ja.header.elementSegs (id / nEinfoInASegment)
  if segment = elementSegVoid then
    let segment := findFreeSegment g c.ja.header
    if segment = g.nDataSegments then (none, { c with rc := .notEnoughSpace })
    else
      match c.perform g (.newEinfo id segment) with
      | (false, c) => (none, c)
      | (true, c) => (some segment, c)
  else (some segment, c)

/-- `grn_ja_replace`. The old place is given back also when the element info could not be set. -/
def replace (g : Config) (c : Ctx) (id einfo : ℕ) (cas : Option ℕ) : Ctx :=
  match einfoSegmentFor g c id with
  | (none, c) => c
  | (some segment, c) =>
    let eback := readNat (c.ja.memory segment) (8 * (id % nEinfoInASegment)) 8
    if cas.any (· ≠ eback) then { c with rc := .casError }
    else free g (c.perform g (.useEinfo id segment einfo)).2 eback

/-- `grn_ja_ref`. `view` is what the decompression makes of the stored bytes. -/
def GrnJa.ref (view : List UInt8 → List UInt8) (s : GrnJa) (id : ℕ) : List UInt8 :=
  if s.refRaw id = [] then [] else view (s.refRaw id)

/-- `grn_ja_put_raw` with `GRN_OBJ_SET`. -/
def putRaw (g : Config) (view : List UInt8 → List UInt8) (c : Ctx) (id : ℕ) (value : List UInt8)
    (cas : Option ℕ) (stack : ℕ) : Ctx :=
  if 0 < value.length ∧ c.ja.ref view id = value then c
  else
    let (_, einfo, c) := setValue g c id value stack
    let c := replace g c id einfo cas
    if c.rc = .success then c else free g c einfo

/-- The entries of the log for the parts of a vector. -/
def addParts (c : Ctx) (id e : ℕ) : ℕ → List (List UInt8) → Bool × Ctx
  | _, [] => (true, c)
  | offset, part :: parts =>
    match c.walAddEntry (valueEntry id e offset part) with
    | (false, c) => (false, c)
    | (true, c) => addParts c id e (offset + part.length) parts

/-- The parts of a vector that are recorded: the header and the others that are not empty. -/
def recordedParts (header body footer : List UInt8) : List (List UInt8) :=
  header :: [body, footer].filter (· ≠ [])

/-- `grn_ja_putv_raw`. -/
def putvRaw (g : Config) (c : Ctx) (id : ℕ) (header body footer : List UInt8) (stack : ℕ) : Ctx :=
  let value := header ++ body ++ footer
  match alloc g c id value.length stack with
  | (⟨false, _, _⟩, c) => c
  | (⟨true, einfo, target⟩, c) =>
    if etinyP einfo then replace g c id (copyToEinfo einfo value) none
    else
      match addParts c id einfo 0 (recordedParts header body footer) with
      | (false, c) => { c with ja := unmapUnset c.ja target value.length }
      | (true, c) => replace g { c with ja := copyTo c.ja target value } id einfo none

/-- The rest of `grn_ja_putv_internal` for a compressed vector. -/
def putvCompressed (g : Config) (c : Ctx) (id : ℕ) (value : List UInt8) (stack : ℕ) : Ctx :=
  match alloc g c id value.length stack with
  | (⟨false, _, _⟩, c) => c
  | (⟨true, einfo, target⟩, c) =>
    if etinyP einfo then replace g c id (copyToEinfo einfo value) none
    else replace g { c with ja := copyTo c.ja target value } id einfo none

end Groonga.Ja
