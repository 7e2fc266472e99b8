import Groonga.Lib.Memory
import Mathlib

/-!
# The store of variable size columns

A value of up to seven bytes is in the element info of its record. A value of up to
`1 << chunk_threshold` bytes is in a chunk: the chunks of one size come from segments of their own,
and a chunk that is not used any more is recorded in the garbage infos of its size. A larger value
that fits into a segment is in a sequential segment, behind the values that came before it; the
segment is given back when no value is left. A value that does not fit into a segment has segments
of its own.

Every step is first recorded in the write ahead log and then done, by the functions that the
recovery uses. The memory of the column is given by its segments; the number of the last entry of
the log and the counts of references to segments are left out. A segment can always be referred.
-/

namespace Groonga.Ja

open Lib

/-! ## Settings -/

/-- `JA_SEGMENT_SIZE`, which is `1 << GRN_JA_W_SEGMENT`. -/
def segmentSize : ℕ := 0x400000

/-- `JA_ELEMENT_SEG_VOID`. -/
def elementSegVoid : ℕ := 0xffffffff

/-- `JA_W_EINFO`. -/
def wEinfo : ℕ := 3

/-- `JA_N_EINFO_IN_A_SEGMENT`. -/
def nEinfoInASegment : ℕ := 0x80000

/-- `JA_N_ELEMENT_SEGMENTS`. -/
def nElementSegments : ℕ := 0x800

/-- The ids of records are less than `1 << GRN_ID_WIDTH`. -/
def idLimit : ℕ := 0x40000000

/-- `grn_ja_n_data_segments`, `grn_ja_n_garbages_in_a_segment` and `chunk_threshold`. -/
structure Config where
  nDataSegments : ℕ
  nGarbagesInASegment : ℕ
  chunkThreshold : ℕ
  nDataSegments_pos : 0 < nDataSegments
  nDataSegments_le : nDataSegments ≤ 0x10000
  nGarbagesInASegment_pos : 0 < nGarbagesInASegment
  nGarbagesInASegment_le : nGarbagesInASegment ≤ 0x7fffe
  chunkThreshold_le : chunkThreshold ≤ 16

/-- The settings of a new column. -/
def Config.standard : Config where
  nDataSegments := 0x10000
  nGarbagesInASegment := 0x7fffe
  chunkThreshold := 16
  nDataSegments_pos := by decide
  nDataSegments_le := by decide
  nGarbagesInASegment_pos := by decide
  nGarbagesInASegment_le := by decide
  chunkThreshold_le := by decide

/-! ## Element infos

An element info is a word of eight bytes. -/

/-- `u.c[7]`, which is also `u.n.c2` and `u.h.c2`. -/
def c7 (e : ℕ) : ℕ := e / 0x100000000000000 % 0x100

/-- `ETINY_P`. -/
def etinyP (e : ℕ) : Bool := c7 e / 0x80 % 2 = 1

/-- `ETINY_ENC`. -/
def etinyEnc (e size : ℕ) : ℕ := e % 0x100000000000000 + (size + 0x80) % 0x100 * 0x100000000000000

/-- `ETINY_DEC`. -/
def etinyDec (e : ℕ) : ℕ := c7 e % 0x40

/-- `EHUGE_P`. -/
def ehugeP (e : ℕ) : Bool := c7 e / 0x40 % 2 = 1

/-- `EHUGE_ENC`. -/
def ehugeEnc (seg size : ℕ) : ℕ :=
  size % 0x100000000 + seg % 0x10000 * 0x100000000 + 0x40 * 0x100000000000000

/-- `EHUGE_DEC`. -/
def ehugeDec (e : ℕ) : ℕ × ℕ := (e / 0x100000000 % 0x10000, e % 0x100000000)

/-- `EINFO_ENC`. -/
def einfoEnc (seg pos size : ℕ) : ℕ :=
  seg % 0x10000 + pos % 0x10000 * 0x10000 + size % 0x10000 * 0x100000000 +
    pos / 0x10000 % 0x100 * 0x1000000000000 + size / 0x10000 % 0x100 * 0x100000000000000

/-- `EINFO_DEC`: the segment, the position and the size. -/
def einfoDec (e : ℕ) : ℕ × ℕ × ℕ :=
  (e % 0x10000, e / 0x1000000000000 % 0x100 * 0x10000 + e / 0x10000 % 0x10000,
    c7 e * 0x10000 + e / 0x100000000 % 0x10000)

/-- `grn_ja_element_type`. -/
inductive ElementType where
  | tiny
  | chunk
  | sequential
  | huge
deriving DecidableEq, Repr

/-- `grn_ja_detect_element_type`. -/
def Config.detectElementType (g : Config) (size : ℕ) : ElementType :=
  if size < 8 then .tiny
  else if size ≤ 2 ^ g.chunkThreshold then .chunk
  else if size + 4 ≤ segmentSize then .sequential
  else .huge

/-- `grn_ja_compute_chunk_msb`. -/
def computeChunkMsb (size : ℕ) : ℕ := Nat.log2 (size - 1) + 1

/-- `chunk_variation`. -/
def chunkVariation (size : ℕ) : ℕ := computeChunkMsb size - wEinfo

/-- `grn_ja_compute_sequence_aligned_element_size`. -/
def computeSequenceAlignedElementSize (size : ℕ) : ℕ := (size + 3) / 4 * 4

/-- `grn_ja_compute_sequence_aligned_data_size`. -/
def computeSequenceAlignedDataSize (size : ℕ) : ℕ := computeSequenceAlignedElementSize size + 4

/-- `grn_ja_compute_huge_n_segments`. -/
def computeHugeNSegments (size : ℕ) : ℕ := (size + segmentSize - 1) % 0x100000000 / segmentSize

/-! ## The column -/

/-- `ja_pos`. -/
structure Pos where
  seg : ℕ
  pos : ℕ
deriving DecidableEq, Repr

/-- `grn_ja_ginfo`. -/
structure GInfo where
  head : ℕ
  tail : ℕ
  nrecs : ℕ
  next : ℕ
  recs : ℕ → Pos

/-- `grn_ja_header`. -/
structure Header where
  currSeg : ℕ
  currPos : ℕ
  freeElements : ℕ → Pos
  garbages : ℕ → ℕ
  nGarbages : ℕ → ℕ
  segmentInfos : ℕ → ℕ
  elementSegs : ℕ → ℕ

/-- `grn_ja`: the header and the bytes of the segments. -/
structure GrnJa where
  header : Header
  memory : ℕ → ℕ → UInt8

/-- `SEG_SEQ`, `SEG_HUGE`, `SEG_EINFO` and `SEG_GINFO`. `SEG_CHUNK` is 0. -/
def segSeq : ℕ := 0x10000000

@[inherit_doc segSeq]
def segHuge : ℕ := 0x20000000

@[inherit_doc segSeq]
def segEinfo : ℕ := 0x30000000

@[inherit_doc segSeq]
def segGinfo : ℕ := 0x40000000

/-- `_grn_ja_create`. -/
def jaCreate : GrnJa where
  header :=
    { currSeg := 0
      currPos := segmentSize
      freeElements := fun _ => ⟨0, 0⟩
      garbages := fun _ => 0
      nGarbages := fun _ => 0
      segmentInfos := fun seg => if seg = 0 then segEinfo else 0
      elementSegs := fun lseg => if lseg = 0 then 0 else elementSegVoid }
  memory := fun _ _ => 0

/-- The garbage info in a segment. -/
def ginfo (m : ℕ → UInt8) : GInfo where
  head := readNat m 0 4
  tail := readNat m 4 4
  nrecs := readNat m 8 4
  next := readNat m 12 4
  recs i := ⟨readNat m (16 + 8 * i) 4, readNat m (20 + 8 * i) 4⟩

/-- The segment changes, the others are as they were. -/
def GrnJa.modify (s : GrnJa) (seg : ℕ) (f : (ℕ → UInt8) → ℕ → UInt8) : GrnJa :=
  { s with memory := Function.update s.memory seg (f (s.memory seg)) }

/-- `SEGMENT_INFO_AT(ja, seg) = info`. -/
def Header.setInfo (h : Header) (seg info : ℕ) : Header :=
  { h with segmentInfos := Function.update h.segmentInfos seg info }

/-- The element info of a record, if there is a segment for it. -/
def GrnJa.einfo (s : GrnJa) (id : ℕ) : ℕ :=
  let seg := s.header.elementSegs (id / nEinfoInASegment)
  if seg = elementSegVoid then 0
  else readNat (s.memory seg) (8 * (id % nEinfoInASegment)) 8

/-- `grn_io_win_map` for reading: the bytes may be in several segments. -/
def winRead (mem : ℕ → ℕ → UInt8) (seg offset size : ℕ) : List UInt8 :=
  (List.range size).map fun i => mem (seg + (offset + i) / segmentSize) ((offset + i) % segmentSize)

/-- The bytes of `grn_ja_ref_raw` for an element info. -/
def valueAt (mem : ℕ → ℕ → UInt8) (e : ℕ) : List UInt8 :=
  if etinyP e then (leBytes 8 e).take (etinyDec e)
  else if ehugeP e then winRead mem (ehugeDec e).1 0 (ehugeDec e).2
  else winRead mem (einfoDec e).1 (einfoDec e).2.1 (einfoDec e).2.2

/-- `grn_ja_ref_raw`: no bytes if nothing is there. -/
def GrnJa.refRaw (s : GrnJa) (id : ℕ) : List UInt8 := valueAt s.memory (s.einfo id)

/-! ## Segments -/

/-- `grn_ja_chunk_segment_use`. -/
def chunkSegmentUse (s : GrnJa) (size segment position : ℕ) : GrnJa :=
  { s with header := { s.header with
    freeElements := Function.update s.header.freeElements (chunkVariation size) ⟨segment, position⟩ } }

/-- `grn_ja_chunk_segment_new`. -/
def chunkSegmentNew (s : GrnJa) (size segment : ℕ) : GrnJa :=
  chunkSegmentUse { s with header := s.header.setInfo segment (computeChunkMsb size) } size segment 0

/-- `grn_ja_chunk_segment_reuse`. -/
def chunkSegmentReuse (s : GrnJa) (garbageSegment tail nRecords nGarbages size : ℕ) : GrnJa :=
  let s := s.modify garbageSegment fun m => writeNat (writeNat m 4 4 tail) 8 4 nRecords
  { s with header := { s.header with
    nGarbages := Function.update s.header.nGarbages (chunkVariation size) nGarbages } }

/-- `grn_ja_sequential_segment_new`. -/
def sequentialSegmentNew (s : GrnJa) (segment : ℕ) : GrnJa :=
  { s with header := { s.header.setInfo segment segSeq with currSeg := segment, currPos := 0 } }

/-- `grn_ja_sequential_segment_use`. -/
def sequentialSegmentUse (s : GrnJa) (recordId segment position segmentInfo size : ℕ) : GrnJa :=
  let aligned := computeSequenceAlignedElementSize size
  let s := s.modify segment fun m =>
    let m := writeNat m position 4 recordId
    if position + aligned < segmentSize then writeNat m (position + aligned) 4 0 else m
  { s with header := { s.header.setInfo segment segmentInfo with
    currSeg := segment
    currPos := position + computeSequenceAlignedDataSize size } }

/-- `DELETED`. -/
def deleted : ℕ := 0x80000000

/-- `grn_ja_sequential_segment_free`. -/
def sequentialSegmentFree (s : GrnJa) (segment position segmentInfo size : ℕ) : GrnJa :=
  let s := s.modify segment fun m =>
    writeNat m (position - 4) 4 (deleted + computeSequenceAlignedElementSize size)
  if segmentInfo = segSeq then
    let h := s.header.setInfo segment 0
    { s with header := if segment = h.currSeg then { h with currPos := segmentSize } else h }
  else { s with header := s.header.setInfo segment segmentInfo }

/-- `grn_ja_huge_segment_new`. -/
def hugeSegmentNew (s : GrnJa) (segment : ℕ) : GrnJa :=
  { s with header := s.header.setInfo segment segHuge }

/-- `grn_ja_huge_segment_free`. -/
def hugeSegmentFree (s : GrnJa) (segment : ℕ) : GrnJa :=
  { s with header := s.header.setInfo segment 0 }

/-- `grn_ja_einfo_segment_new`. -/
def einfoSegmentNew (s : GrnJa) (id segment : ℕ) : GrnJa :=
  let lseg := id / nEinfoInASegment
  let h := s.header.setInfo segment (segEinfo + lseg)
  { s.modify segment (fun _ _ => 0) with
    header := { h with elementSegs := Function.update h.elementSegs lseg segment } }

/-- `grn_ja_einfo_segment_use`. -/
def einfoSegmentUse (s : GrnJa) (id segment einfo : ℕ) : GrnJa :=
  let s := s.modify segment fun m => writeNat m (8 * (id % nEinfoInASegment)) 8 einfo
  { s with header := { s.header with
    elementSegs := Function.update s.header.elementSegs (id / nEinfoInASegment) segment } }

/-- `ginfo_previous->next = segment`, or the first garbage info of the size is the segment. -/
def setNextGarbageSegment (s : GrnJa) (previous segment size : ℕ) : GrnJa :=
  if previous ≠ 0 then s.modify previous fun m => writeNat m 12 4 segment
  else { s with header := { s.header with
    garbages := Function.update s.header.garbages (chunkVariation size) segment } }

/-- `grn_ja_ginfo_segment_new`. -/
def ginfoSegmentNew (s : GrnJa) (previous segment size : ℕ) : GrnJa :=
  let s := s.modify segment fun m =>
    writeNat (writeNat (writeNat (writeNat m 0 4 0) 4 4 0) 8 4 0) 12 4 0
  let s := { s with header := s.header.setInfo segment (segGinfo + chunkVariation size) }
  setNextGarbageSegment s previous segment size

/-- `grn_ja_ginfo_segment_use`. -/
def ginfoSegmentUse (g : Config) (s : GrnJa)
    (garbageSegment segment position head nRecords nGarbages size : ℕ) : GrnJa :=
  let index := if head = 0 then g.nGarbagesInASegment - 1 else head - 1
  let s := s.modify garbageSegment fun m =>
    writeNat (writeNat (writeNat (writeNat m (16 + 8 * index) 4 segment) (20 + 8 * index) 4 position)
      0 4 head) 8 4 nRecords
  { s with header := { s.header with
    nGarbages := Function.update s.header.nGarbages (chunkVariation size) nGarbages } }

/-- `grn_ja_ginfo_segment_free`. -/
def ginfoSegmentFree (s : GrnJa) (previous segment next size : ℕ) : GrnJa :=
  let s := { s with header := s.header.setInfo segment 0 }
  setNextGarbageSegment s previous next size

/-! ## The write ahead log -/

/-- What a step does to the segments. -/
inductive SegmentEntry where
  | newChunk (size segment : ℕ)
  | newSequential (segment : ℕ)
  | newHuge (segment : ℕ)
  | newEinfo (recordId segment : ℕ)
  | newGinfo (size garbageSegment previous : ℕ)
  | useChunk (size segment position : ℕ)
  | useSequential (recordId size segment position segmentInfo : ℕ)
  | useEinfo (recordId segment einfo : ℕ)
  | useGinfo (size segment position garbageSegment head nRecords nGarbages : ℕ)
  | reuse (size segment position garbageSegment tail nRecords nGarbages previous next : ℕ)
  | freeSequential (size segment position segmentInfo : ℕ)
  | freeHuge (segment : ℕ)
  | freeGinfo (size segment garbageSegment previous next : ℕ)
deriving DecidableEq, Repr

/-- An entry of the log. -/
inductive Entry where
  | segment (e : SegmentEntry)
  | setValue (recordId size segment position : ℕ) (value : List UInt8)
deriving DecidableEq, Repr

/-- `grn_ja_wal_recover_new_segment`, `grn_ja_wal_recover_use_segment`,
`grn_ja_wal_recover_reuse_segment` and `grn_ja_wal_recover_free_segment`. -/
def SegmentEntry.apply (g : Config) (s : GrnJa) : SegmentEntry → GrnJa
  | .newChunk size segment => chunkSegmentNew s size segment
  | .newSequential segment => sequentialSegmentNew s segment
  | .newHuge segment => hugeSegmentNew s segment
  | .newEinfo id segment => einfoSegmentNew s id segment
  | .newGinfo size segment previous => ginfoSegmentNew s previous segment size
  | .useChunk size segment position => chunkSegmentUse s size segment position
  | .useSequential id size segment position info => sequentialSegmentUse s id segment position info size
  | .useEinfo id segment einfo => einfoSegmentUse s id segment einfo
  | .useGinfo size segment position garbageSegment head nRecords nGarbages =>
    ginfoSegmentUse g s garbageSegment segment position head nRecords nGarbages size
  | .reuse size _ _ garbageSegment tail nRecords nGarbages _ _ =>
    chunkSegmentReuse s garbageSegment tail nRecords nGarbages size
  | .freeSequential size segment position info => sequentialSegmentFree s segment position info size
  | .freeHuge segment => hugeSegmentFree s segment
  | .freeGinfo size _ garbageSegment previous next =>
    ginfoSegmentFree s previous garbageSegment next size

/-- `grn_rc`, as far as the store sets it. -/
inductive Rc where
  | success
  | noMemoryAvailable
  | notEnoughSpace
  | casError
  | walError
deriving DecidableEq, Repr

/-- A context with a column: the log, `ctx->rc`, how many entries were to be added, and which of
them cannot be added. -/
structure Ctx where
  ja : GrnJa
  wal : List Entry
  rc : Rc
  attempts : ℕ
  fails : ℕ → Entry → Bool

/-- `grn_ja_wal_add_entry`. -/
def Ctx.walAddEntry (c : Ctx) (e : Entry) : Bool × Ctx :=
  if c.fails c.attempts e then (false, { c with rc := .walError, attempts := c.attempts + 1 })
  else (true, { c with wal := c.wal ++ [e], attempts := c.attempts + 1 })

/-- An entry is added to the log and then done. -/
def Ctx.perform (g : Config) (c : Ctx) (e : SegmentEntry) : Bool × Ctx :=
  match c.walAddEntry (.segment e) with
  | (false, c) => (false, c)
  | (true, c) => (true, { c with ja := e.apply g c.ja })

end Groonga.Ja
