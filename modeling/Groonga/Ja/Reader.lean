import Groonga.Ja.Compressed

/-!
# The reader of a column

A reader keeps where the element info of a record is, and the segment with its value, from one
record to the next. A value is read as a whole or in part. The reader of a column with compression
reads from the start of the segment, wherever in the segment the value is. A part of a huge value
is read up to the end of its segment at least, even if less is asked for.
-/

namespace Groonga.Ja

open Lib

/-! ## Readers -/

/-- `grn_ja_reader`. An address is given by a segment, and for `einfo` also by the offset. -/
structure Reader where
  einfoSegId : ℕ
  einfo : Option (ℕ × ℕ)
  bodySegId : ℕ
  bodySegAddr : Option ℕ
  bodySegOffset : ℕ
  valueSize : ℕ
  packedSize : ℕ

/-- `grn_ja_reader_init`. -/
def readerInit : Reader where
  einfoSegId := elementSegVoid
  einfo := none
  bodySegId := elementSegVoid
  bodySegAddr := none
  bodySegOffset := 0
  valueSize := 0
  packedSize := 0

/-- The part of `grn_ja_reader_seek` for a column without compression. The offset stays as it is for
a huge value. -/
def Reader.seekBody (r : Reader) (e : ℕ) : Reader :=
  let (seg, offset, size) :=
    if ehugeP e then ((ehugeDec e).1, r.bodySegOffset, (ehugeDec e).2) else einfoDec e
  { r with
    bodySegId := seg
    bodySegAddr := if seg = r.bodySegId then r.bodySegAddr else none
    bodySegOffset := offset
    valueSize := size }

/-- The part of `grn_ja_reader_seek` for a column with compression. -/
def Reader.seekPacked (g : Config) (s : GrnJa) (r : Reader) (e : ℕ) : Bool × Reader :=
  let (seg, offset, size) := if ehugeP e then ((ehugeDec e).1, 0, (ehugeDec e).2) else einfoDec e
  let r := { r with bodySegOffset := offset, packedSize := size }
  if seg ≠ r.bodySegId ∧ g.nDataSegments ≤ seg then (false, r)
  else
    let r := if seg = r.bodySegId then r else { r with bodySegId := seg, bodySegAddr := some seg }
    match r.bodySegAddr with
    | none => (false, r)
    | some addr => (true, { r with valueSize := readNat (s.memory addr) offset 8 % 0x100000000 })

/-- `grn_ja_reader_seek`: success, and the reader. -/
def Reader.seek (g : Config) (k : Option Compressor) (s : GrnJa) (r : Reader) (id : ℕ) : Bool × Reader :=
  let seg := s.header.elementSegs (id / nEinfoInASegment)
  if seg = elementSegVoid then (false, r)
  else if seg ≠ r.einfoSegId ∧ g.nDataSegments ≤ seg then (false, r)
  else
    let position := 8 * (id % nEinfoInASegment)
    let r := { r with einfoSegId := seg, einfo := some (seg, position) }
    let e := readNat (s.memory seg) position 8
    if etinyP e then (true, { r with valueSize := etinyDec e })
    else if k.isNone then (true, r.seekBody e)
    else r.seekPacked g s e

/-- `grn_rc`, as far as the reader sets it. -/
inductive ReadRc where
  | success
  | functionNotImplemented
  | unknownError
  | compressorError
deriving DecidableEq, Repr

/-- What a call returns, the bytes that it writes to the buffer one after the other, and the reader
after it. -/
structure ReadResult where
  rc : ReadRc
  bytes : List UInt8
  reader : Reader

/-- The loop that reads the segments of a huge value, and the rest behind it. A segment that does not
exist cannot be referred. -/
def readSegments (g : Config) (mem : ℕ → ℕ → UInt8) : ℕ → ℕ → ℕ → List UInt8 × Bool
  | 0, _, _ => ([], false)
  | fuel + 1, seg, size =>
    if g.nDataSegments ≤ seg then ([], false)
    else if segmentSize < size then
      let (rest, ok) := readSegments g mem fuel (seg + 1) (size - segmentSize)
      (read (mem seg) 0 segmentSize ++ rest, ok)
    else (read (mem seg) 0 size, true)

/-- `reader->body_seg_addr`, which is set when it is not there. -/
def Reader.body (g : Config) (r : Reader) : Option (ℕ × Reader) :=
  match r.bodySegAddr with
  | some addr => some (addr, r)
  | none =>
    if g.nDataSegments ≤ r.bodySegId then none
    else some (r.bodySegId, { r with bodySegAddr := some r.bodySegId })

/-- `grn_ja_reader_read`. The decompression reads from the start of the segment. -/
def Reader.read (g : Config) (k : Option Compressor) (s : GrnJa) (r : Reader) : ReadResult :=
  match r.einfo with
  | none => ⟨.unknownError, [], r⟩
  | some (seg, position) =>
    let e := readNat (s.memory seg) position 8
    if etinyP e then ⟨.success, Lib.read (s.memory seg) position r.valueSize, r⟩
    else if ehugeP e then
      if k.isNone then
        let (bytes, ok) := readSegments g s.memory (g.nDataSegments + 1) r.bodySegId r.valueSize
        ⟨if ok then .success else .unknownError, bytes, r⟩
      else ⟨.functionNotImplemented, [], r⟩
    else
      match r.body g with
      | none => ⟨.unknownError, [], r⟩
      | some (addr, r) =>
        match k with
        | none => ⟨.success, Lib.read (s.memory addr) r.bodySegOffset r.valueSize, r⟩
        | some z =>
          match z.grnCompressorDecompress (Lib.read (s.memory addr) 0 r.packedSize) with
          | none => ⟨.compressorError, [], r⟩
          | some bytes => ⟨.success, bytes, r⟩

/-- `grn_ja_reader_pread`. The number of bytes that are left has 64 bits. -/
def Reader.pread (g : Config) (k : Option Compressor) (s : GrnJa) (r : Reader) (offset size : ℕ) :
    ReadResult :=
  if k.isSome then ⟨.functionNotImplemented, [], r⟩
  else
    match r.einfo with
    | none => ⟨.unknownError, [], r⟩
    | some (seg, position) =>
      let e := readNat (s.memory seg) position 8
      if r.valueSize ≤ offset ∨ size = 0 then ⟨.success, [], r⟩
      else
        let size := min size (r.valueSize - offset)
        if etinyP e then ⟨.success, Lib.read (s.memory seg) (position + offset) size, r⟩
        else if ehugeP e then
          let seg := r.bodySegId + offset / segmentSize
          let room := segmentSize - offset % segmentSize
          if g.nDataSegments ≤ seg then ⟨.unknownError, [], r⟩
          else
            let (rest, ok) := readSegments g s.memory (g.nDataSegments + 1) (seg + 1)
              ((size + 2 ^ 64 - room) % 2 ^ 64)
            ⟨if ok then .success else .unknownError,
              Lib.read (s.memory seg) (offset % segmentSize) room ++ rest, r⟩
        else
          match r.body g with
          | none => ⟨.unknownError, [], r⟩
          | some (addr, r) => ⟨.success, Lib.read (s.memory addr) (offset + r.bodySegOffset) size, r⟩

/-- `grn_ja_ref`. There is no result when the decompression fails. -/
def GrnJa.refWith (k : Option Compressor) (s : GrnJa) (id : ℕ) : Option (List UInt8) :=
  match k with
  | none => some (s.refRaw id)
  | some z => if s.refRaw id = [] then some [] else z.grnCompressorDecompress (s.refRaw id)

/-- **Readers after seeks and reads**, with the record that was sought last, if it was found. -/
inductive ReaderRun (g : Config) (k : Option Compressor) (s : GrnJa) : Option ℕ → Reader → Prop where
  | init : ReaderRun g k s none readerInit
  | seek (current : Option ℕ) (r : Reader) (id : ℕ) (hrun : ReaderRun g k s current r)
      (hid : id < idLimit) (hok : (r.seek g k s id).1 = true) :
      ReaderRun g k s (some id) (r.seek g k s id).2
  | seekFailed (current : Option ℕ) (r : Reader) (id : ℕ) (hrun : ReaderRun g k s current r)
      (hok : (r.seek g k s id).1 = false) : ReaderRun g k s none (r.seek g k s id).2
  | read (current : Option ℕ) (r : Reader) (hrun : ReaderRun g k s current r) :
      ReaderRun g k s current (r.read g k s).reader
  | pread (current : Option ℕ) (r : Reader) (offset size : ℕ) (hrun : ReaderRun g k s current r) :
      ReaderRun g k s current (r.pread g k s offset size).reader

variable {g : Config} {k : Option Compressor} {L : Ledger} {s : GrnJa} {r : Reader}
  {id e seg offset size n : ℕ} {mem : ℕ → ℕ → UInt8}

/-! ## Segments of huge values -/

theorem winRead_add (mem : ℕ → ℕ → UInt8) (seg offset m n : ℕ) :
    winRead mem seg offset (m + n) = winRead mem seg offset m ++ winRead mem seg (offset + m) n := by
  rw [winRead, List.range_add, List.map_append, List.map_map, winRead, winRead]
  refine congrArg (_ ++ ·) (List.map_congr_left fun i _ => ?_)
  simp only [Function.comp, Nat.add_assoc]

theorem winRead_next (mem : ℕ → ℕ → UInt8) (seg offset n j : ℕ) :
    winRead mem seg (segmentSize * j + offset) n = winRead mem (seg + j) offset n := by
  have hpos : 0 < segmentSize := by decide
  refine List.map_congr_left fun i _ => ?_
  rw [Nat.add_assoc, Nat.mul_add_div hpos, Nat.mul_add_mod, Nat.add_assoc]

theorem winRead_next_one (mem : ℕ → ℕ → UInt8) (seg n : ℕ) :
    winRead mem seg segmentSize n = winRead mem (seg + 1) 0 n := by
  have h := winRead_next mem seg 0 n 1
  rwa [Nat.mul_one, Nat.add_zero] at h

/-- **Bytes are read from the segments that have them.** -/
theorem readSegments_spec {fuel m : ℕ} (hend : seg + m ≤ g.nDataSegments) (hm : 0 < m)
    (hsize : size ≤ m * segmentSize) (hfuel : m ≤ fuel) :
    readSegments g mem fuel seg size = (winRead mem seg 0 size, true) := by
  induction fuel generalizing seg size m with
  | zero => omega
  | succ fuel ih =>
    rw [readSegments, if_neg (by omega)]
    split_ifs with hmore
    · have hm' : 0 < m - 1 := by
        by_contra hzero
        obtain rfl : m = 1 := by omega
        omega
      have hrest : size - segmentSize ≤ (m - 1) * segmentSize := by
        rw [Nat.sub_mul, Nat.one_mul]
        omega
      rw [@ih (seg + 1) (size - segmentSize) (m - 1) (by omega) hm' hrest (by omega)]
      have hsplit : size = segmentSize + (size - segmentSize) := by omega
      have hone : 0 + segmentSize ≤ segmentSize := Nat.le_of_eq (Nat.zero_add _)
      rw [← winRead_within mem seg hone, ← winRead_next_one]
      simp only
      conv_rhs => rw [hsplit, winRead_add, Nat.zero_add]
    · have hlast : 0 + size ≤ segmentSize := by omega
      rw [winRead_within mem seg hlast]

/-! ## What the records refer to -/

theorem einfo_eq (hvoid : s.header.elementSegs (id / nEinfoInASegment) ≠ elementSegVoid) :
    readNat (s.memory (s.header.elementSegs (id / nEinfoInASegment))) (8 * (id % nEinfoInASegment)) 8 =
      s.einfo id := by
  simp only [GrnJa.einfo, if_neg hvoid]

/-- A value within one segment. -/
theorem Good.within (hG : Good g s L) (hid : id < idLimit) (htiny : etinyP (s.einfo id) = false)
    (hhuge : ehugeP (s.einfo id) = false) :
    (einfoDec (s.einfo id)).1 < g.nDataSegments ∧ s.refRaw id =
      read (s.memory (einfoDec (s.einfo id)).1) (einfoDec (s.einfo id)).2.1 (einfoDec (s.einfo id)).2.2 := by
  have hfits := hG.sound.inv.owned.fits id (lt_nOwners hid)
  have hempty := (hG.sound.whole id hid).empty htiny hhuge
  rw [hG.sound.own id hid, place, htiny, hhuge] at hfits
  rw [GrnJa.refRaw, valueAt, htiny, hhuge]
  simp only [Bool.false_eq_true, if_false] at hfits ⊢
  generalize einfoDec (s.einfo id) = d at hfits hempty ⊢
  obtain ⟨seg, pos, size⟩ := d
  simp only at hfits hempty ⊢
  split_ifs at hfits with hzero hchunk
  · refine ⟨?_, ?_⟩
    · rw [hempty hzero]
      exact g.nDataSegments_pos
    · rw [hzero]
      rfl
  · have hle := add_chunk_le hfits.1 hfits.2.aligned hfits.2.pos_lt
    have hsize := le_chunk hchunk
    simp only at hle
    exact ⟨hfits.2.seg_lt, winRead_within _ _ (by omega)⟩
  · obtain ⟨hlt, -, -, -, -, hend⟩ := hfits
    have hsize : size ≤ computeSequenceAlignedElementSize size := by
      rw [computeSequenceAlignedElementSize]
      omega
    exact ⟨hlt, winRead_within _ _ (by omega)⟩

/-- A huge value. -/
theorem Good.huge (hG : Good g s L) (hid : id < idLimit) (htiny : etinyP (s.einfo id) = false)
    (hhuge : ehugeP (s.einfo id) = true) : ∃ m, 0 < m ∧ (ehugeDec (s.einfo id)).1 + m ≤ g.nDataSegments ∧
      (ehugeDec (s.einfo id)).2 ≤ m * segmentSize ∧
      s.refRaw id = winRead s.memory (ehugeDec (s.einfo id)).1 0 (ehugeDec (s.einfo id)).2 := by
  have hfits := hG.sound.inv.owned.fits id (lt_nOwners hid)
  have hwhole := (hG.sound.whole id hid).huge htiny hhuge
  rw [hG.sound.own id hid, place, htiny, hhuge] at hfits
  rw [GrnJa.refRaw, valueAt, htiny, hhuge]
  simp only [Bool.false_eq_true, if_false, if_true] at hfits ⊢
  exact ⟨_, hfits.1, hfits.2.1, hwhole, trivial⟩

/-! ## What a reader keeps -/

/-- The address in the reader is that of the segment in the reader. -/
structure Reader.Cached (k : Option Compressor) (r : Reader) : Prop where
  addr : ∀ a, r.bodySegAddr = some a → a = r.bodySegId
  packed : k.isSome = true → r.bodySegId ≠ elementSegVoid → r.bodySegAddr = some r.bodySegId

/-- The reader is at the record. -/
structure Reader.At (k : Option Compressor) (s : GrnJa) (r : Reader) (id : ℕ) : Prop where
  void : s.header.elementSegs (id / nEinfoInASegment) ≠ elementSegVoid
  einfo : r.einfo = some (s.header.elementSegs (id / nEinfoInASegment), 8 * (id % nEinfoInASegment))
  tiny : etinyP (s.einfo id) = true → r.valueSize = etinyDec (s.einfo id)
  huge : k = none → etinyP (s.einfo id) = false → ehugeP (s.einfo id) = true →
    ehugeDec (s.einfo id) = (r.bodySegId, r.valueSize)
  within : k = none → etinyP (s.einfo id) = false → ehugeP (s.einfo id) = false →
    einfoDec (s.einfo id) = (r.bodySegId, r.bodySegOffset, r.valueSize)
  packed : k.isSome = true → etinyP (s.einfo id) = false → ehugeP (s.einfo id) = false →
    einfoDec (s.einfo id) = (r.bodySegId, r.bodySegOffset, r.packedSize) ∧
      r.valueSize = readNat (s.memory r.bodySegId) r.bodySegOffset 8 % 0x100000000

/-- The address of the segment is set. -/
theorem Reader.Cached.set : ({ r with bodySegAddr := some r.bodySegId } : Reader).Cached k :=
  ⟨fun _ ha => (Option.some.inj ha).symm, fun _ _ => rfl⟩

theorem Reader.At.set (h : r.At k s id) :
    ({ r with bodySegAddr := some r.bodySegId } : Reader).At k s id :=
  ⟨h.void, h.einfo, h.tiny, h.huge, h.within, h.packed⟩

theorem Reader.body_cases (h : r.Cached k) :
    r.body g = some (r.bodySegId, { r with bodySegAddr := some r.bodySegId }) ∨
      (r.body g = none ∧ g.nDataSegments ≤ r.bodySegId) := by
  obtain ⟨einfoSegId, einfo, bodySegId, bodySegAddr, offset, valueSize, packedSize⟩ := r
  cases bodySegAddr with
  | some a =>
    obtain rfl := h.addr a rfl
    exact .inl rfl
  | none =>
    rw [Reader.body]
    by_cases hout : g.nDataSegments ≤ bodySegId
    · exact .inr ⟨if_pos hout, hout⟩
    · exact .inl (if_neg hout)

/-- A read leaves the reader as it was, or sets the address of the segment. -/
theorem Reader.read_reader (h : r.Cached k) : (r.read g k s).reader = r ∨
    (r.read g k s).reader = { r with bodySegAddr := some r.bodySegId } := by
  obtain ⟨einfoSegId, einfo, bodySegId, bodySegAddr, bodySegOffset, valueSize, packedSize⟩ := r
  rw [Reader.read]
  cases einfo with
  | none => exact .inl rfl
  | some p =>
    obtain ⟨seg, position⟩ := p
    simp only
    by_cases htiny : etinyP (readNat (s.memory seg) position 8)
    · rw [if_pos htiny]
      exact .inl rfl
    rw [if_neg htiny]
    by_cases hhuge : ehugeP (readNat (s.memory seg) position 8)
    · rw [if_pos hhuge]
      split_ifs
      · exact .inl rfl
      · exact .inl rfl
      · exact .inl rfl
    rw [if_neg hhuge]
    rcases Reader.body_cases (g := g) h with hbody | ⟨hbody, -⟩
    · rw [hbody]
      right
      cases k with
      | none => rfl
      | some z =>
        simp only
        cases z.grnCompressorDecompress (Lib.read (s.memory bodySegId) 0 packedSize) with
        | none => rfl
        | some bytes => rfl
    · rw [hbody]
      exact .inl rfl

theorem Reader.pread_reader (h : r.Cached k) (offset size : ℕ) :
    (r.pread g k s offset size).reader = r ∨
      (r.pread g k s offset size).reader = { r with bodySegAddr := some r.bodySegId } := by
  obtain ⟨einfoSegId, einfo, bodySegId, bodySegAddr, bodySegOffset, valueSize, packedSize⟩ := r
  rw [Reader.pread]
  by_cases hsome : k.isSome
  · rw [if_pos hsome]
    exact .inl rfl
  rw [if_neg hsome]
  cases einfo with
  | none => exact .inl rfl
  | some p =>
    obtain ⟨seg, position⟩ := p
    simp only
    by_cases hnone : valueSize ≤ offset ∨ size = 0
    · rw [if_pos hnone]
      exact .inl rfl
    rw [if_neg hnone]
    by_cases htiny : etinyP (readNat (s.memory seg) position 8)
    · rw [if_pos htiny]
      exact .inl rfl
    rw [if_neg htiny]
    by_cases hhuge : ehugeP (readNat (s.memory seg) position 8)
    · rw [if_pos hhuge]
      by_cases hout : g.nDataSegments ≤ bodySegId + offset / segmentSize
      · rw [if_pos hout]
        exact .inl rfl
      · rw [if_neg hout]
        exact .inl rfl
    rw [if_neg hhuge]
    rcases Reader.body_cases (g := g) h with hbody | ⟨hbody, -⟩
    · rw [hbody]
      exact .inr rfl
    · rw [hbody]
      exact .inl rfl

/-- The segments of a column have numbers of 16 bits. -/
theorem ehugeDec_ne_void (e : ℕ) : (ehugeDec e).1 ≠ elementSegVoid ∧ (einfoDec e).1 ≠ elementSegVoid := by
  simp only [ehugeDec, einfoDec]
  unfold elementSegVoid
  omega

theorem Reader.seekBody_spec (h : r.Cached none) (e : ℕ) : (r.seekBody e).Cached none := by
  refine ⟨fun a ha => ?_, fun hsome => absurd hsome Bool.false_ne_true⟩
  rw [Reader.seekBody] at ha ⊢
  generalize (if ehugeP e then ((ehugeDec e).1, r.bodySegOffset, (ehugeDec e).2) else einfoDec e) = d at ha ⊢
  obtain ⟨seg, offset, size⟩ := d
  simp only at ha ⊢
  split_ifs at ha with hseg
  rw [h.addr a ha, hseg]

theorem Reader.seekPacked_spec {z : Compressor} (h : r.Cached (some z)) (e : ℕ) :
    (r.seekPacked g s e).2.Cached (some z) ∧ (r.seekPacked g s e).2.einfo = r.einfo ∧
      ((r.seekPacked g s e).1 = true → ehugeP e = false →
        einfoDec e = ((r.seekPacked g s e).2.bodySegId, (r.seekPacked g s e).2.bodySegOffset,
          (r.seekPacked g s e).2.packedSize) ∧
        (r.seekPacked g s e).2.valueSize =
          readNat (s.memory (r.seekPacked g s e).2.bodySegId) (r.seekPacked g s e).2.bodySegOffset 8 %
            0x100000000) := by
  obtain ⟨hne, hne'⟩ := ehugeDec_ne_void e
  rw [Reader.seekPacked]
  obtain ⟨seg, offset, size, hd, hvoid, hdec⟩ : ∃ seg offset size,
      (if ehugeP e then ((ehugeDec e).1, 0, (ehugeDec e).2) else einfoDec e) = (seg, offset, size) ∧
        seg ≠ elementSegVoid ∧ (ehugeP e = false → einfoDec e = (seg, offset, size)) := by
    cases hhuge : ehugeP e with
    | true => exact ⟨_, _, _, if_pos rfl, hne, fun hfalse => by cases hfalse⟩
    | false => exact ⟨_, _, _, if_neg Bool.false_ne_true, hne', fun _ => rfl⟩
  simp only [hd]
  by_cases hout : seg ≠ r.bodySegId ∧ g.nDataSegments ≤ seg
  · rw [if_pos hout]
    exact ⟨⟨h.addr, h.packed⟩, rfl, fun hok => by cases hok⟩
  rw [if_neg hout]
  by_cases hseg : seg = r.bodySegId
  · have haddr := h.packed rfl (hseg ▸ hvoid)
    simp only [if_pos hseg, haddr]
    exact ⟨⟨fun a ha => (Option.some.inj ha).symm, fun _ _ => rfl⟩, trivial,
      fun _ hhuge => ⟨hseg ▸ hdec hhuge, trivial⟩⟩
  · simp only [if_neg hseg]
    exact ⟨⟨fun a ha => (Option.some.inj ha).symm, fun _ _ => rfl⟩, trivial,
      fun _ hhuge => ⟨hdec hhuge, trivial⟩⟩

/-- **A seek** keeps the address of the segment right, and one that succeeds goes to the record. -/
theorem Reader.seek_spec (h : r.Cached k) (id : ℕ) : (r.seek g k s id).2.Cached k ∧
    ((r.seek g k s id).1 = true → (r.seek g k s id).2.At k s id) := by
  rw [Reader.seek]
  by_cases hvoid : s.header.elementSegs (id / nEinfoInASegment) = elementSegVoid
  · simp only [if_pos hvoid]
    exact ⟨h, fun hok => by cases hok⟩
  simp only [if_neg hvoid]
  by_cases hout : s.header.elementSegs (id / nEinfoInASegment) ≠ r.einfoSegId ∧
      g.nDataSegments ≤ s.header.elementSegs (id / nEinfoInASegment)
  · rw [if_pos hout]
    exact ⟨h, fun hok => by cases hok⟩
  rw [if_neg hout, einfo_eq hvoid]
  cases htiny : etinyP (s.einfo id) with
  | true =>
    simp only [if_true]
    exact ⟨⟨h.addr, h.packed⟩, fun _ => ⟨hvoid, rfl, fun _ => rfl, fun _ hfalse => absurd htiny
      (Bool.eq_false_iff.mp hfalse), fun _ hfalse => absurd htiny (Bool.eq_false_iff.mp hfalse),
      fun _ hfalse => absurd htiny (Bool.eq_false_iff.mp hfalse)⟩⟩
  | false =>
    simp only [Bool.false_eq_true, if_false]
    have hset : ({ r with
        einfoSegId := s.header.elementSegs (id / nEinfoInASegment)
        einfo := some (s.header.elementSegs (id / nEinfoInASegment), 8 * (id % nEinfoInASegment)) } :
          Reader).Cached k := ⟨h.addr, h.packed⟩
    cases k with
    | none =>
      simp only [Option.isNone_none, if_true]
      refine ⟨Reader.seekBody_spec hset _, fun _ => ⟨hvoid, ?_, fun htrue => ?_, fun _ _ hhuge => ?_,
        fun _ _ hhuge => ?_, fun hsome => by cases hsome⟩⟩
      · rfl
      · exact absurd htrue (Bool.eq_false_iff.mp htiny)
      · simp only [Reader.seekBody, if_pos hhuge]
      · rw [Bool.eq_false_iff] at hhuge
        simp only [Reader.seekBody, if_neg hhuge]
    | some z =>
      simp only [Option.isNone_some, Bool.false_eq_true, if_false]
      obtain ⟨hcached, heinfo, hpacked⟩ := @Reader.seekPacked_spec g s _ z hset (s.einfo id)
      exact ⟨hcached, fun hok => ⟨hvoid, heinfo, fun htrue => absurd htrue (Bool.eq_false_iff.mp htiny),
        fun hnone => (nomatch hnone), fun hnone => (nomatch hnone), fun _ _ hhuge => hpacked hok hhuge⟩⟩

/-- **All seeks and reads.** -/
theorem ReaderRun.spec {current : Option ℕ} (hrun : ReaderRun g k s current r) :
    r.Cached k ∧ ∀ id, current = some id → id < idLimit ∧ r.At k s id := by
  induction hrun with
  | init => exact ⟨⟨fun _ ha => (nomatch ha), fun _ hne => absurd rfl hne⟩, fun _ h => (nomatch h)⟩
  | seek current r id _ hid hok ih =>
    obtain ⟨hcached, hat⟩ := @Reader.seek_spec g k s r ih.1 id
    exact ⟨hcached, fun j hj => Option.some.inj hj ▸ ⟨hid, hat hok⟩⟩
  | seekFailed current r id _ _ ih =>
    exact ⟨(Reader.seek_spec ih.1 id).1, fun _ h => nomatch h⟩
  | read current r _ ih =>
    rcases @Reader.read_reader g k s r ih.1 with heq | heq
    · rw [heq]
      exact ih
    · rw [heq]
      exact ⟨Reader.Cached.set, fun j hj => ⟨(ih.2 j hj).1, (ih.2 j hj).2.set⟩⟩
  | pread current r offset size _ ih =>
    rcases @Reader.pread_reader g k s r ih.1 offset size with heq | heq
    · rw [heq]
      exact ih
    · rw [heq]
      exact ⟨Reader.Cached.set, fun j hj => ⟨(ih.2 j hj).1, (ih.2 j hj).2.set⟩⟩

/-! ## What a reader reads -/

/-- A read that writes the value, of as many bytes as the reader says, or that is not implemented. -/
def ReadResult.Gives (result : ReadResult) (valueSize : ℕ) (value : Option (List UInt8)) : Prop :=
  result.rc = .functionNotImplemented ∨
    (result.rc = .success ∧ value = some result.bytes ∧ result.bytes.length = valueSize)

/-- In a column with compression, a value that is not huge is at the start of its segment, or the
bytes there are decompressed to the value; and its length is the one that is recorded. -/
def Readable (k : Option Compressor) (s : GrnJa) (id : ℕ) : Prop :=
  match k with
  | none => True
  | some z =>
    (etinyP (s.einfo id) = true → s.refRaw id = []) ∧
      (etinyP (s.einfo id) = false → ehugeP (s.einfo id) = false →
        ∃ value, s.refRaw id ≠ [] ∧ z.grnCompressorDecompress (s.refRaw id) = some value ∧
          leNat ((s.refRaw id).take 8) % 0x100000000 = value.length ∧
          ((einfoDec (s.einfo id)).2.1 = 0 ∨ z.grnCompressorDecompress
            (read (s.memory (einfoDec (s.einfo id)).1) 0 (einfoDec (s.einfo id)).2.2) = some value))

theorem take_read {m : ℕ → UInt8} {a n k : ℕ} (h : n ≤ k) : (read m a k).take n = read m a n := by
  simp only [Lib.read]
  rw [← List.map_take, List.take_range, Nat.min_eq_left h]

/-- The bytes of a value in its element info. -/
theorem read_tiny (hvoid : s.header.elementSegs (id / nEinfoInASegment) ≠ elementSegVoid) (h : n ≤ 8) :
    read (s.memory (s.header.elementSegs (id / nEinfoInASegment))) (8 * (id % nEinfoInASegment)) n =
      (leBytes 8 (s.einfo id)).take n := by
  have hbytes := leBytes_leNat (read (s.memory (s.header.elementSegs (id / nEinfoInASegment)))
    (8 * (id % nEinfoInASegment)) 8)
  rw [length_read] at hbytes
  rw [← einfo_eq hvoid, readNat, hbytes, take_read h]

/-- The value of a record whose value is in its element info. -/
theorem Reader.At.tiny_spec (hat : r.At k s id) (hG : Good g s L) (hid : id < idLimit)
    (htiny : etinyP (s.einfo id) = true) :
    Lib.read (s.memory (s.header.elementSegs (id / nEinfoInASegment))) (8 * (id % nEinfoInASegment))
      r.valueSize = s.refRaw id ∧ (s.refRaw id).length = r.valueSize ∧ r.valueSize < 8 := by
  have hlt := (hG.sound.whole id hid).tiny htiny
  rw [hat.tiny htiny, read_tiny hat.void (Nat.le_of_lt hlt), GrnJa.refRaw, valueAt, if_pos htiny,
    List.length_take, length_leBytes]
  exact ⟨rfl, Nat.min_eq_left (Nat.le_of_lt hlt), hlt⟩

theorem grnCompressorDecompress_short {z : Compressor} {raw : List UInt8} (h : raw.length < 8) :
    z.grnCompressorDecompress raw = none := if_pos h

/-- **A value is read as a whole.** -/
theorem Reader.At.read_iff (hat : r.At k s id) (hcached : r.Cached k) (hG : Good g s L)
    (hid : id < idLimit) :
    (r.read g k s).Gives r.valueSize (s.refWith k id) ↔ Readable k s id := by
  rw [Reader.read, hat.einfo]
  simp only [einfo_eq hat.void]
  cases htiny : etinyP (s.einfo id) with
  | true =>
    obtain ⟨hread, hlen, hlt⟩ := hat.tiny_spec hG hid htiny
    simp only [if_true, hread]
    cases k with
    | none => exact ⟨fun _ => trivial, fun _ => .inr ⟨rfl, rfl, hlen⟩⟩
    | some z =>
      simp only [GrnJa.refWith]
      refine ⟨fun h => ⟨fun _ => ?_, fun hfalse => absurd htiny (Bool.eq_false_iff.mp hfalse)⟩, fun h => ?_⟩
      · rcases h with h | ⟨-, hvalue, -⟩
        · cases h
        · by_contra hne
          rw [if_neg hne, grnCompressorDecompress_short (by omega)] at hvalue
          cases hvalue
      · have hnil := h.1 htiny
        exact .inr ⟨rfl, by rw [if_pos hnil, hnil], hlen⟩
  | false =>
    simp only [Bool.false_eq_true, if_false]
    cases hhuge : ehugeP (s.einfo id) with
    | true =>
      simp only [if_true]
      cases k with
      | none =>
        obtain ⟨m, hm, hend, hsize, hraw⟩ := hG.huge hid htiny hhuge
        rw [hat.huge rfl htiny hhuge] at hend hsize hraw
        have hfuel : m ≤ g.nDataSegments + 1 := by omega
        simp only [Option.isNone_none, if_true]
        rw [readSegments_spec hend hm hsize hfuel]
        refine ⟨fun _ => trivial, fun _ => .inr ⟨rfl, ?_, ?_⟩⟩
        · rw [GrnJa.refWith, hraw]
        · simp only [winRead, List.length_map, List.length_range]
      | some z =>
        simp only [Option.isNone_some, Bool.false_eq_true, if_false]
        exact ⟨fun _ => ⟨fun htrue => absurd htrue (Bool.eq_false_iff.mp htiny),
          fun _ hfalse => absurd hhuge (Bool.eq_false_iff.mp hfalse)⟩, fun _ => .inl rfl⟩
    | false =>
      simp only [Bool.false_eq_true, if_false]
      obtain ⟨hlt, hraw⟩ := hG.within hid htiny hhuge
      cases k with
      | none =>
        have hdec := hat.within rfl htiny hhuge
        rw [hdec] at hlt hraw
        have hbody := (@Reader.body_cases g none r hcached).resolve_right fun h => by
          simp only at hlt
          omega
        simp only [hbody]
        refine ⟨fun _ => trivial, fun _ => .inr ⟨rfl, ?_, length_read _ _ _⟩⟩
        rw [GrnJa.refWith, hraw]
      | some z =>
        obtain ⟨hdec, hvalueSize⟩ := hat.packed rfl htiny hhuge
        rw [hdec] at hlt hraw
        have hbody := (@Reader.body_cases g (some z) r hcached).resolve_right fun h => by
          simp only at hlt
          omega
        simp only [hbody, GrnJa.refWith]
        simp only at hraw
        have hlength : (s.refRaw id).length = r.packedSize := by rw [hraw, length_read]
        -- the length that the reader takes from the metadata
        have hrecorded : 8 ≤ r.packedSize →
            r.valueSize = leNat ((s.refRaw id).take 8) % 0x100000000 := by
          intro h8
          rw [hvalueSize, hraw, take_read h8, readNat]
        constructor
        · intro h
          refine ⟨fun htrue => absurd htrue (Bool.eq_false_iff.mp htiny), fun _ _ => ?_⟩
          rw [hdec]
          cases hstart : z.grnCompressorDecompress (Lib.read (s.memory r.bodySegId) 0 r.packedSize) with
          | none =>
            rw [hstart] at h
            rcases h with h | ⟨h, -⟩
            · cases h
            · cases h
          | some bytes =>
            rw [hstart] at h
            rcases h with h | ⟨-, hvalue, hbytes⟩
            · cases h
            have h8 : 8 ≤ r.packedSize := by
              by_contra hlt8
              rw [grnCompressorDecompress_short (by rw [length_read]; omega)] at hstart
              cases hstart
            have hne : s.refRaw id ≠ [] := by
              intro hnil
              rw [hnil, List.length_nil] at hlength
              omega
            rw [if_neg hne] at hvalue
            exact ⟨bytes, hne, hvalue, (hrecorded h8).symm.trans hbytes.symm, .inr rfl⟩
        · intro h
          obtain ⟨value, hne, hvalue, hlen, hstart⟩ := h.2 htiny hhuge
          rw [hdec] at hstart
          simp only at hstart
          have h8 : 8 ≤ r.packedSize := by
            by_contra hlt8
            rw [grnCompressorDecompress_short (by rw [hlength]; omega)] at hvalue
            cases hvalue
          have hstart' : z.grnCompressorDecompress (Lib.read (s.memory r.bodySegId) 0 r.packedSize) =
              some value := by
            rcases hstart with hzero | hstart
            · rw [hzero] at hraw
              rw [← hraw]
              exact hvalue
            · exact hstart
          rw [hstart']
          refine .inr ⟨rfl, ?_, ?_⟩
          · rw [if_neg hne]
            exact hvalue
          · rw [hrecorded h8]
            exact hlen.symm

/-! ## Parts of a value -/

/-- A part of a huge value ends behind the segment in which it begins, or with this segment if there
is another one behind it. -/
def EndsOutside (g : Config) (s : GrnJa) (id valueSize offset size : ℕ) : Prop :=
  etinyP (s.einfo id) = false → ehugeP (s.einfo id) = true → offset < valueSize → size ≠ 0 →
    segmentSize ≤ offset % segmentSize + min size (valueSize - offset) ∧
      (offset % segmentSize + min size (valueSize - offset) = segmentSize →
        (ehugeDec (s.einfo id)).1 + offset / segmentSize + 1 < g.nDataSegments)

/-- The bytes of the value from the offset on, as many as are asked for. -/
def ReadResult.GivesPart (result : ReadResult) (value : List UInt8) (offset size : ℕ) : Prop :=
  result.rc = .success ∧ result.bytes = (value.drop offset).take size

theorem read_drop_take (m : ℕ → UInt8) (a n offset size : ℕ) :
    ((read m a n).drop offset).take size = read m (a + offset) (min size (n - offset)) := by
  refine List.ext_getElem (by simp) fun i h₁ h₂ => ?_
  simp only [Lib.read, List.getElem_take, List.getElem_drop, List.getElem_map, List.getElem_range,
    Nat.add_assoc]

theorem winRead_drop_take (mem : ℕ → ℕ → UInt8) (seg n offset size : ℕ) :
    ((winRead mem seg 0 n).drop offset).take size = winRead mem seg offset (min size (n - offset)) := by
  refine List.ext_getElem (by simp [winRead]) fun i h₁ h₂ => ?_
  simp only [winRead, List.getElem_take, List.getElem_drop, List.getElem_map, List.getElem_range,
    Nat.zero_add]

theorem drop_take_nil {value : List UInt8} (h : value.length ≤ offset ∨ size = 0) :
    (value.drop offset).take size = [] := by
  rcases h with h | rfl
  · rw [List.drop_eq_nil_of_le h, List.take_nil]
  · exact List.take_zero

/-- **A part of a huge value** begins in one segment and goes on in the ones behind it. The offset is
given by the segment and the offset in it. -/
theorem readSegments_part {m q o : ℕ} (hend : seg + m ≤ g.nDataSegments) (hn : n ≤ m * segmentSize)
    (ho : o < segmentSize) (hle : segmentSize * q + o + size ≤ n) (hlt : n < 2 ^ 32)
    (houtside : segmentSize ≤ o + size) (hnext : o + size = segmentSize → seg + q + 1 < g.nDataSegments) :
    readSegments g mem (g.nDataSegments + 1) (seg + q + 1) ((size + 2 ^ 64 - (segmentSize - o)) % 2 ^ 64) =
      (winRead mem (seg + q + 1) 0 (size - (segmentSize - o)), true) := by
  have hrest : (size + 2 ^ 64 - (segmentSize - o)) % 2 ^ 64 = size - (segmentSize - o) := by omega
  rw [hrest]
  rcases Nat.eq_or_lt_of_le houtside with heq | hmore
  · -- nothing is left
    have hnext' := hnext heq.symm
    exact readSegments_spec (m := 1) (by omega) (by decide) (by omega) (by omega)
  · -- the bytes end in one of the segments of the value
    have hindex : q + 1 < m := by
      by_contra hge
      have hmul : m * segmentSize ≤ (q + 1) * segmentSize := Nat.mul_le_mul_right _ (Nat.not_lt.mp hge)
      have hexpand : (q + 1) * segmentSize = segmentSize * q + segmentSize := by ring
      omega
    have hmul : (m - (q + 1)) * segmentSize = m * segmentSize - (q + 1) * segmentSize :=
      Nat.sub_mul _ _ _
    have hexpand : (q + 1) * segmentSize = segmentSize * q + segmentSize := by ring
    refine readSegments_spec (m := m - (q + 1)) (by omega) (by omega) ?_ (by omega)
    omega

/-- The bytes that are written when a part of a huge value is read do not end before the segment. -/
theorem length_segment_le (m : ℕ → UInt8) (o : ℕ) (rest : List UInt8) :
    segmentSize - o ≤ (read m o (segmentSize - o) ++ rest).length := by
  rw [List.length_append, length_read]
  exact Nat.le_add_right _ _

/-- **A value is read in part.** -/
theorem Reader.At.pread_iff (hat : r.At none s id) (hcached : r.Cached none) (hG : Good g s L)
    (hid : id < idLimit) (offset size : ℕ) :
    (r.pread g none s offset size).GivesPart (s.refRaw id) offset size ↔
      EndsOutside g s id r.valueSize offset size := by
  have hlength : (s.refRaw id).length = r.valueSize := by
    cases htiny : etinyP (s.einfo id) with
    | true => exact (hat.tiny_spec hG hid htiny).2.1
    | false =>
      cases hhuge : ehugeP (s.einfo id) with
      | true =>
        obtain ⟨m, -, -, -, hraw⟩ := hG.huge hid htiny hhuge
        rw [hraw, hat.huge rfl htiny hhuge]
        simp only [winRead, List.length_map, List.length_range]
      | false =>
        rw [(hG.within hid htiny hhuge).2, hat.within rfl htiny hhuge, length_read]
  rw [Reader.pread, hat.einfo]
  simp only [einfo_eq hat.void, Option.isSome_none, Bool.false_eq_true, if_false]
  by_cases hnone : r.valueSize ≤ offset ∨ size = 0
  · rw [if_pos hnone]
    refine ⟨fun _ _ _ hlt hne => ?_, fun _ => ⟨rfl, (drop_take_nil (by rwa [hlength])).symm⟩⟩
    rcases hnone with h | h
    · omega
    · exact absurd h hne
  rw [if_neg hnone]
  push Not at hnone
  obtain ⟨hlt, hne⟩ := hnone
  cases htiny : etinyP (s.einfo id) with
  | true =>
    obtain ⟨hread, -, -⟩ := hat.tiny_spec hG hid htiny
    simp only [if_true]
    refine ⟨fun _ hfalse => absurd htiny (Bool.eq_false_iff.mp hfalse), fun _ => ⟨rfl, ?_⟩⟩
    rw [← hread, read_drop_take]
  | false =>
    simp only [Bool.false_eq_true, if_false]
    cases hhuge : ehugeP (s.einfo id) with
    | false =>
      simp only [Bool.false_eq_true, if_false]
      obtain ⟨hltSeg, hraw⟩ := hG.within hid htiny hhuge
      rw [hat.within rfl htiny hhuge] at hltSeg hraw
      have hbody := (@Reader.body_cases g none r hcached).resolve_right fun h => by
        simp only at hltSeg
        omega
      simp only [hbody]
      refine ⟨fun _ _ hfalse => absurd hfalse (Bool.eq_false_iff.mp hhuge), fun _ => ⟨rfl, ?_⟩⟩
      rw [hraw, read_drop_take, Nat.add_comm offset]
    | true =>
      obtain ⟨m, hm, hend, hsize, hraw⟩ := hG.huge hid htiny hhuge
      have hdec := hat.huge rfl htiny hhuge
      have hvalueLt : r.valueSize < 2 ^ 32 := by
        have h := congrArg Prod.snd hdec
        simp only [ehugeDec] at h
        omega
      rw [hdec] at hend hsize hraw
      simp only at hend hsize hraw
      have hdiv := Nat.div_add_mod offset segmentSize
      have hmod := Nat.mod_lt offset (show 0 < segmentSize by decide)
      have hpart : ((s.refRaw id).drop offset).take size =
          winRead s.memory (r.bodySegId + offset / segmentSize) (offset % segmentSize)
            (min size (r.valueSize - offset)) := by
        rw [hraw, winRead_drop_take, ← winRead_next, hdiv]
      rw [ReadResult.GivesPart, hpart, EndsOutside, hdec]
      simp only [if_true, htiny, hhuge, hlt, hne, ne_eq, not_false_eq_true, true_imp_iff]
      obtain ⟨k, hk⟩ : ∃ k, min size (r.valueSize - offset) = k := ⟨_, rfl⟩
      have hkpos : 0 < k := by omega
      have hkle : offset + k ≤ r.valueSize := by omega
      rw [hk]
      generalize offset / segmentSize = q at *
      generalize offset % segmentSize = o at *
      have hseg : r.bodySegId + q < g.nDataSegments := by
        have hindex : q < m := by
          by_contra hge
          have hmul : m * segmentSize ≤ q * segmentSize := Nat.mul_le_mul_right _ (Nat.not_lt.mp hge)
          rw [Nat.mul_comm q] at hmul
          omega
        omega
      rw [if_neg (Nat.not_le.mpr hseg)]
      constructor
      · rintro ⟨hrc, hbytes⟩
        have hlen := congrArg List.length hbytes
        have hle := length_segment_le (s.memory (r.bodySegId + q)) o
          (readSegments g s.memory (g.nDataSegments + 1) (r.bodySegId + q + 1)
            ((k + 2 ^ 64 - (segmentSize - o)) % 2 ^ 64)).1
        simp only at hlen
        rw [hlen] at hle
        simp only [winRead, List.length_map, List.length_range] at hle
        refine ⟨by omega, fun heq => ?_⟩
        by_contra hout
        rw [readSegments, if_pos (Nat.not_lt.mp hout)] at hrc
        cases hrc
      · rintro ⟨houtside, hnext⟩
        rw [readSegments_part hend hsize hmod (by omega) hvalueLt houtside hnext]
        refine ⟨rfl, ?_⟩
        have hfirst : o + (segmentSize - o) ≤ segmentSize := by omega
        have hsplit : k = segmentSize - o + (k - (segmentSize - o)) := by omega
        have hend' : o + (segmentSize - o) = segmentSize := by omega
        simp only
        conv_rhs => rw [hsplit, winRead_add, winRead_within _ _ hfirst, hend', winRead_next_one]

/-! ## The reader and `grn_ja_ref` -/

/-- **When a reader agrees with `grn_ja_ref`.** In a column that is good, as all columns after puts are,
and after any seeks and reads, a read gives the value of the record that was sought last if and only
if it is readable. In a column without compression a part of the value is read, and nothing else,
if and only if it does not end inside of a segment of a huge value in which it begins. -/
theorem reader_agrees_iff (hG : Good g s L) (hrun : ReaderRun g k s (some id) r) :
    ((r.read g k s).Gives r.valueSize (s.refWith k id) ↔ Readable k s id) ∧
      (k = none → ∀ offset size, (r.pread g k s offset size).GivesPart (s.refRaw id) offset size ↔
        EndsOutside g s id r.valueSize offset size) := by
  obtain ⟨hcached, hat⟩ := hrun.spec
  obtain ⟨hid, hat⟩ := hat id rfl
  refine ⟨hat.read_iff hcached hG hid, ?_⟩
  rintro rfl offset size
  exact hat.pread_iff hcached hG hid offset size

/-- Two records with packed values, the second one behind the first one in its segment. -/
def Ctx.twoPacked : Option Ctx :=
  (Storage.verbatim.put .standard .created 1 [0x61] none 0).bind fun c =>
    Storage.verbatim.put .standard c 2 [0x62] none 0

/-- A reader of a column with the library that leaves the values as they are. -/
def readerAt (s : GrnJa) (id : ℕ) : Bool × Reader :=
  readerInit.seek .standard (some Storage.verbatim.compressor) s id

theorem reached_twoPacked : ∃ c, Ctx.twoPacked = some c ∧ Storage.verbatim.Reached .standard c.ja := by
  have hrun : ((Storage.verbatim.put .standard .created 1 [0x61] none 0).map fun c =>
      (c.rc, (Storage.verbatim.put .standard c 2 [0x62] none 0).map Ctx.rc)) =
        some (.success, some .success) := by decide +kernel
  obtain ⟨c₁, hput₁, heq⟩ := Option.map_eq_some_iff.mp hrun
  obtain ⟨hrc₁, hrun₂⟩ := Prod.mk.inj heq
  obtain ⟨c₂, hput₂, hrc₂⟩ := Option.map_eq_some_iff.mp hrun₂
  refine ⟨c₂, ?_, .put _ _ 2 [0x62] (.put _ _ 1 [0x61] .create (by decide) (by decide)
    ⟨.created, c₁, none, 0, rfl, hput₁, hrc₁, rfl⟩) (by decide) (by decide)
    ⟨c₁, c₂, none, 0, rfl, hput₂, hrc₂, rfl⟩⟩
  rw [Ctx.twoPacked, hput₁]
  exact hput₂

/-- The first of the two is read. -/
theorem reader_agrees_iff_twoPacked : ∃ c, Ctx.twoPacked = some c ∧
    ((readerAt c.ja 1).2.read .standard (some Storage.verbatim.compressor) c.ja).Gives
      (readerAt c.ja 1).2.valueSize (c.ja.refWith (some Storage.verbatim.compressor) 1) := by
  obtain ⟨c, hc, hreached⟩ := reached_twoPacked
  obtain ⟨L, hG, -⟩ := hreached.good
  have hfacts : (Ctx.twoPacked.map fun c => ((readerAt c.ja 1).1, etinyP (c.ja.einfo 1),
      (einfoDec (c.ja.einfo 1)).2.1, c.ja.refRaw 1)) = some (true, false, 0, packedA) := by
    decide +kernel
  rw [hc, Option.map_some, Option.some.injEq, Prod.mk.injEq, Prod.mk.injEq, Prod.mk.injEq] at hfacts
  obtain ⟨hok, htiny, hpos, hraw⟩ := hfacts
  refine ⟨c, hc, (reader_agrees_iff hG (.seek none readerInit 1 .init (by decide) hok)).1.mpr
    ⟨fun htrue => absurd htrue (Bool.eq_false_iff.mp htiny), fun _ _ => ⟨[0x61], ?_, ?_, ?_, .inl hpos⟩⟩⟩
  · rw [hraw]
    decide
  · rw [hraw]
    decide +kernel
  · rw [hraw]
    decide +kernel

/-- The second one is not: the first one is read instead. -/
theorem reader_differs : ¬ ∀ (g : Config) (k : Option Compressor) (s : GrnJa) (L : Ledger) (id : ℕ)
    (r : Reader), Good g s L → ReaderRun g k s (some id) r →
      (r.read g k s).Gives r.valueSize (s.refWith k id) := by
  intro h
  obtain ⟨c, hc, hreached⟩ := reached_twoPacked
  obtain ⟨L, hG, -⟩ := hreached.good
  have hfacts : (Ctx.twoPacked.map fun c => ((readerAt c.ja 2).1,
      ((readerAt c.ja 2).2.read .standard (some Storage.verbatim.compressor) c.ja).rc,
      ((readerAt c.ja 2).2.read .standard (some Storage.verbatim.compressor) c.ja).bytes,
      c.ja.refWith (some Storage.verbatim.compressor) 2)) =
        some (true, .success, [0x61], some [0x62]) := by
    decide +kernel
  rw [hc, Option.map_some, Option.some.injEq, Prod.mk.injEq, Prod.mk.injEq, Prod.mk.injEq] at hfacts
  obtain ⟨hok, hrc, hbytes, href⟩ := hfacts
  rcases h _ _ c.ja L 2 _ hG (.seek none readerInit 2 .init (by decide) hok) with hne | ⟨-, hvalue, -⟩
  · exact absurd (hrc.symm.trans hne) (by decide)
  · have heq := (hvalue.symm.trans href).trans rfl
    rw [← readerAt, hbytes] at heq
    exact absurd heq (by decide)

end Groonga.Ja
