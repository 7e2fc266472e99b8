import Groonga.Table.Runs
import Groonga.Lib.IdScan
import Mathlib

/-!
# Cursors of tables without keys

A cursor gives the live records between two records, upwards or downwards, after some of them were
skipped. With garbages the records to skip are looked up one by one. Without garbages the position is
just moved by their number, also beyond the last record; then the position never equals the tail, and
the cursor gives ids that are not between the two records.
-/

namespace Groonga.Table

open Lib

/-! ## The promise -/

/-- The bounds of a cursor. -/
def CursorArgs.bounds (a : CursorArgs) : Bounds := ⟨a.min, a.max, a.descending, a.gt, a.lt⟩

/-- A call of `grn_array_cursor_next`. -/
def nextCall (r : ArrayCursor × GrnArray) : ℕ × ArrayCursor × GrnArray := r.2.cursorNext r.1

/-- **The cursor obeys** its bounds, its offset and its limit. -/
def GrnArray.CursorObeys (s : GrnArray) (a : CursorArgs) : Prop :=
  a.bounds.Obeys s.header.currRec s.bits a.offset a.limit nextCall (fun r => r.1.currRec) (s.cursorOpen a)

variable {s : GrnArray} {a : CursorArgs}

/-! ## The bitmap -/

/-- The bits of live records are in segments that exist. -/
def GrnArray.Mapped (s : GrnArray) : Prop := ∀ id, s.bits id = true → s.segments (bitmapSegment id) = true

theorem GrnArray.Mapped.bitOn (hm : s.Mapped) (id : ℕ) : (s.bitOn id).Mapped := by
  intro i hi
  show Function.update s.segments (bitmapSegment id) true (bitmapSegment i) = true
  rw [Function.update_apply]
  split_ifs with hsegment
  · rfl
  · have hne : i ≠ id := fun heq => hsegment (congrArg bitmapSegment heq)
    have hbit : Function.update s.bits id true i = true := hi
    rw [Function.update_of_ne hne] at hbit
    exact hm i hbit

theorem GrnArray.Mapped.bitOff (hm : s.Mapped) (id : ℕ) : (s.bitOff id).Mapped := by
  intro i hi
  show Function.update s.segments (bitmapSegment id) true (bitmapSegment i) = true
  rw [Function.update_apply]
  split_ifs with hsegment
  · rfl
  · have hne : i ≠ id := fun heq => hsegment (congrArg bitmapSegment heq)
    have hbit : Function.update s.bits id false i = true := hi
    rw [Function.update_of_ne hne] at hbit
    exact hm i hbit

/-- Only the bits and the segments are in question. -/
theorem GrnArray.Mapped.of_same {s' : GrnArray} (hm : s.Mapped) (hbits : s'.bits = s.bits)
    (hsegments : s'.segments = s.segments) : s'.Mapped := by
  intro id hid
  rw [hsegments]
  exact hm id (by rw [← hbits]; exact hid)

theorem GrnArray.Mapped.add (hm : s.Mapped) (f : Failures) : (s.add f).2.Mapped := by
  rw [GrnArray.add, GrnArray.reuse, GrnArray.addNew]
  split_ifs
  · exact hm
  · exact hm
  · exact hm.of_same rfl rfl
  · exact GrnArray.Mapped.bitOn (hm.of_same rfl rfl) _
  · exact hm
  · exact (hm.bitOn _).of_same rfl rfl
  · exact hm
  · exact hm
  · exact (hm.bitOn _).bitOff _
  · exact (hm.bitOn _).of_same rfl rfl

theorem segments_bitmapAt {id : ℕ} : (s.bitmapAt id).2.segments = s.segments := by rw [bitmapAt_eq]

theorem GrnArray.Mapped.bitmapAt (hm : s.Mapped) (id : ℕ) : (s.bitmapAt id).2.Mapped :=
  hm.of_same bits_bitmapAt segments_bitmapAt

theorem GrnArray.Mapped.readAll (hm : s.Mapped) (ids : List ℕ) : (s.readAll ids).Mapped := by
  induction ids generalizing s with
  | nil => exact hm
  | cons id ids ih => exact ih (hm.bitmapAt id)

theorem GrnArray.Mapped.deleteLive (hm : s.Mapped) (id : ℕ) : (s.deleteLive id).Mapped := by
  rw [GrnArray.deleteLive]
  split_ifs
  · exact (hm.bitOff id).of_same rfl rfl
  · exact (hm.bitOff id).of_same rfl rfl

theorem GrnArray.Mapped.deleteById (hm : s.Mapped) (id : ℕ) (touchFails : Bool) :
    (s.deleteById id touchFails).2.Mapped := by
  have hread := hm.bitmapAt id
  rw [GrnArray.deleteById]
  rcases hbit : s.bitmapAt id with ⟨b, s'⟩
  rw [hbit] at hread
  rcases b with - | - | -
  · exact hread
  · exact hread
  · cases touchFails with
    | false => exact hread.deleteLive id
    | true => exact hread

theorem GrnArray.Mapped.setValue (hm : s.Mapped) (id : ℕ) (value : List UInt8) : (s.setValue id value).Mapped := by
  have hread := hm.bitmapAt id
  rw [GrnArray.setValue]
  split_ifs
  · rcases hbit : s.bitmapAt id with ⟨b, s'⟩
    rw [hbit] at hread
    rcases b with - | - | -
    · exact hread
    · exact hread
    · exact hread.of_same rfl rfl
  · exact hm
  · exact hm.of_same rfl rfl

/-- **Each call** keeps the bits of live records in segments. -/
theorem mapped_step {t : Tables} (hm : t.array.Mapped) (op : ArrayOp) : (t.step op).array.Mapped := by
  cases op with
  | add f => exact hm.add f
  | delete id touchFails => exact hm.deleteById id touchFails
  | at' id =>
    show (t.array.at' id).2.Mapped
    rw [at'_snd]
    split_ifs
    · exact hm.bitmapAt id
    · exact hm
  | getValue id =>
    show (t.array.getValue id).2.Mapped
    rw [getValue_snd]
    split_ifs
    · exact hm.bitmapAt id
    · exact hm
  | setValue id value => exact hm.setValue id value
  | cursorOpen k a =>
    show (t.array.cursorOpen a).2.Mapped
    rw [cursorOpen_snd]
    split_ifs
    · exact hm.readAll _
    · exact hm
  | cursorNext k =>
    show (t.array.cursorNext (t.cursors k)).2.2.Mapped
    have hloop := nextLoop_snd (t.cursors k).tail (cursorDir (t.cursors k).descending) 0x100000000
      (t.cursors k).currRec t.array
    have hlast : (nextLoop (t.cursors k).tail (cursorDir (t.cursors k).descending) 0x100000000
        (t.cursors k).currRec t.array).2.2.Mapped := by
      rw [hloop]
      split_ifs
      · exact hm
      · exact hm.readAll _
    rw [GrnArray.cursorNext]
    split_ifs
    · exact hm
    · rcases hnext : nextLoop (t.cursors k).tail (cursorDir (t.cursors k).descending) 0x100000000
        (t.cursors k).currRec t.array with ⟨b, c, s'⟩
      rw [hnext] at hlast
      cases b with
      | false => exact hlast
      | true => exact hlast

theorem mapped_run {t : Tables} (hm : t.array.Mapped) (ops : List ArrayOp) : (t.run ops).array.Mapped := by
  induction ops generalizing t with
  | nil => exact hm
  | cons op ops ih => exact ih (mapped_step hm op)

theorem mapped_create (valueSize : ℕ) : (tablesCreate valueSize).array.Mapped := fun _ hid =>
  absurd hid Bool.false_ne_true

/-- **The bit of a record is read** as it is. -/
theorem GrnArray.Sound.bitAt_iff (hs : s.Sound) (hm : s.Mapped) (id : ℕ) :
    s.bitAt id = some true ↔ s.bits id = true := by
  rw [GrnArray.bitAt]
  constructor
  · intro h
    split_ifs at h
    exact Option.some.inj h
  · intro h
    have hle := (hs.live id h).2.trans hs.le_max
    have hsegment : bitmapSegment id < maxBitmapSegments := by
      rw [bitmapSegment, maxBitmapSegments]
      rw [arrayMax] at hle
      omega
    rw [if_pos ⟨hsegment, hm id h⟩, h]

/-! ## The loops -/

/-- The ids that the loops do not pass over. -/
def GrnArray.seen (s : GrnArray) (id : ℕ) : Bool := decide (s.header.nGarbages = 0) || s.bitAt id == some true

theorem seen_bitmapAt (s : GrnArray) (id : ℕ) : (s.bitmapAt id).2.seen = s.seen := by
  funext i
  rw [GrnArray.seen, GrnArray.seen, nGarbages_bitmapAt, bitAt_bitmapAt]

/-- **The loop that skips records** skips what is seen. -/
theorem skipLoop_fst (tail : ℕ) (descending : Bool) (fuel : ℕ) (offset : ℤ) (currRec : ℕ) (s : GrnArray)
    (hany : s.header.nGarbages ≠ 0) : (skipLoop tail (cursorDir descending) fuel offset currRec s).1 =
      skipTo s.seen (shift 0x100000000 descending) tail fuel offset currRec := by
  induction fuel generalizing offset currRec s with
  | zero => rfl
  | succ fuel ih =>
    rw [skipLoop, skipTo]
    by_cases hend : offset = 0 ∨ currRec = tail
    · rw [if_pos hend, if_pos hend]
    · rw [if_neg hend, if_neg hend]
      simp only
      rw [show toUint32 (currRec + cursorDir descending) = shift 0x100000000 descending currRec from rfl]
      generalize shift 0x100000000 descending currRec = c
      have hbit := @bitmapAt_fst s c
      have hsame := seen_bitmapAt s c
      have hgarbages := @nGarbages_bitmapAt s c
      have hseen : s.seen c = (s.bitAt c == some true) := by rw [GrnArray.seen, decide_eq_false hany, Bool.false_or]
      rw [hseen, ← hbit]
      rcases hread : s.bitmapAt c with ⟨b, s'⟩
      rw [hread] at hsame hgarbages
      have hany' : s'.header.nGarbages ≠ 0 := by
        rw [hgarbages]
        exact hany
      rw [← hsame]
      rcases b with - | - | -
      · exact ih offset c s' hany'
      · exact ih offset c s' hany'
      · exact ih (offset - 1) c s' hany'

/-- **The loop for the next record** stops at what is seen. -/
theorem nextLoop_fst (tail : ℕ) (descending : Bool) (fuel currRec : ℕ) (s : GrnArray) :
    ((nextLoop tail (cursorDir descending) fuel currRec s).1,
      (nextLoop tail (cursorDir descending) fuel currRec s).2.1) =
        nextTo s.seen (shift 0x100000000 descending) tail fuel currRec := by
  induction fuel generalizing currRec s with
  | zero => rfl
  | succ fuel ih =>
    rw [nextLoop, nextTo]
    by_cases hend : currRec = tail
    · rw [if_pos hend, if_pos hend]
    · rw [if_neg hend, if_neg hend]
      simp only
      rw [show toUint32 (currRec + cursorDir descending) = shift 0x100000000 descending currRec from rfl]
      generalize shift 0x100000000 descending currRec = c
      by_cases hnone : s.header.nGarbages = 0
      · have hseen : s.seen c = true := by rw [GrnArray.seen, decide_eq_true hnone, Bool.true_or]
        rw [if_pos hnone, if_pos hseen]
      · have hbit := @bitmapAt_fst s c
        have hsame := seen_bitmapAt s c
        have hseen : s.seen c = (s.bitAt c == some true) := by
          rw [GrnArray.seen, decide_eq_false hnone, Bool.false_or]
        rw [if_neg hnone, hseen, ← hbit]
        rcases hread : s.bitmapAt c with ⟨b, s'⟩
        rw [hread] at hsame
        rw [← hsame]
        rcases b with - | - | -
        · exact ih c s'
        · exact ih c s'
        · rfl

/-! ## The calls -/

/-- `cursor->curr_rec` and `cursor->tail` before records are skipped, for a largest id. -/
def rangeOf (maxId : ℕ) (a : CursorArgs) : ℕ × ℕ :=
  if a.descending then
    let currRec := if a.max ≠ 0 then toUint32 (a.max + (if a.lt then 0 else 1)) else maxId + 1
    let tail := if a.min ≠ 0 then toUint32 (a.min + (if a.gt then 1 else 0)) else 1
    (currRec, if currRec < tail then currRec else tail)
  else
    let currRec := if a.min ≠ 0 then (if a.gt then a.min else a.min - 1) else 0
    let tail := if a.max ≠ 0 then (if a.lt then a.max - 1 else a.max) else maxId
    (currRec, if tail < currRec then currRec else tail)

/-- **Where a cursor starts.** -/
theorem rangeOf_eq {maxId : ℕ} (hle : maxId ≤ arrayMax) (hmin : a.min ≤ maxId) (hmax : a.max ≤ maxId) :
    rangeOf maxId a = (a.bounds.start maxId, a.bounds.stop maxId) := by
  rcases a with ⟨min, max, offset, limit, descending, gt, lt⟩
  rw [arrayMax] at hle
  simp only at hmin hmax
  rw [rangeOf, CursorArgs.bounds, Bounds.start, Bounds.stop, Bounds.start]
  cases descending with
  | false =>
    simp only [Bool.false_eq_true, if_false, Prod.mk.injEq, true_and]
    split_ifs <;> omega
  | true =>
    simp only [if_true, toUint32, Prod.mk.injEq]
    split_ifs <;> omega

theorem cursorRange_eq (hle : s.header.currRec ≤ arrayMax) (hmin : a.min ≤ s.header.currRec)
    (hmax : a.max ≤ s.header.currRec) :
    s.cursorRange a = (a.bounds.start s.header.currRec, a.bounds.stop s.header.currRec) :=
  rangeOf_eq hle hmin hmax

/-- What comes after reads is seen as before. -/
theorem seen_readAll (s : GrnArray) (ids : List ℕ) : (s.readAll ids).seen = s.seen := by
  induction ids generalizing s with
  | nil => rfl
  | cons id ids ih => exact (ih _).trans (seen_bitmapAt s id)

/-- Reads do not change the number of entries. -/
theorem nEntries_readAll (s : GrnArray) (ids : List ℕ) : (s.readAll ids).header.nEntries = s.header.nEntries := by
  induction ids generalizing s with
  | nil => rfl
  | cons id ids ih =>
    refine (ih _).trans ?_
    show (s.bitmapAt id).2.header.nEntries = s.header.nEntries
    rw [GrnArray.bitmapAt]
    split_ifs
    · exact (putGarbageToBuffer_spec s.header id).2.1
    · rfl

/-- A cursor as a scan. -/
def ArrayCursor.scan (c : ArrayCursor) : Scan := ⟨c.currRec, c.tail, c.rest, c.descending⟩

/-- **A call** is a step of the scan. -/
theorem scan_nextCall (r : ArrayCursor × GrnArray) : (nextCall r).2.2.seen = r.2.seen ∧
    r.1.scan.next 0x100000000 r.2.seen 0x100000000 = ((nextCall r).1, (nextCall r).2.1.scan) := by
  rcases r with ⟨⟨currRec, tail, rest, descending⟩, s⟩
  rw [nextCall, GrnArray.cursorNext, Scan.next, ArrayCursor.scan]
  by_cases hrest : rest = 0
  · simp only [if_pos hrest]
    exact ⟨trivial, rfl⟩
  · have hloop := nextLoop_fst tail descending 0x100000000 currRec s
    have hkeep := nextLoop_snd tail (cursorDir descending) 0x100000000 currRec s
    have hseen : (nextLoop tail (cursorDir descending) 0x100000000 currRec s).2.2.seen = s.seen := by
      rw [hkeep]
      split_ifs
      · rfl
      · exact seen_readAll _ _
    have hsame : nextTo s.seen (shift 0x100000000 descending) tail 0x100000000
        currRec = ((nextLoop tail (cursorDir descending) 0x100000000 currRec s).1,
          (nextLoop tail (cursorDir descending) 0x100000000 currRec s).2.1) := hloop.symm
    simp only [if_neg hrest, hsame]
    rcases hq : nextLoop tail (cursorDir descending) 0x100000000 currRec s with ⟨b, c, s'⟩
    rw [hq] at hseen
    cases b with
    | false => exact ⟨hseen, rfl⟩
    | true => exact ⟨hseen, rfl⟩

/-- The cursor is opened. -/
theorem cursorOpen_fst (s : GrnArray) (a : CursorArgs) : (s.cursorOpen a).1 =
    ⟨if s.header.nGarbages ≠ 0 then
        (skipLoop (s.cursorRange a).2 (cursorDir a.descending) 0x100000000 a.offset (s.cursorRange a).1 s).1
      else toUint32 ((s.cursorRange a).1 + cursorDir a.descending * a.offset),
      (s.cursorRange a).2, if a.limit < 0 then s.header.nEntries else a.limit.toNat, a.descending⟩ := by
  rw [GrnArray.cursorOpen]
  rcases s.cursorRange a with ⟨currRec, tail⟩
  simp only
  by_cases hany : s.header.nGarbages ≠ 0
  · have hkeep := skipLoop_snd tail (cursorDir a.descending) 0x100000000 a.offset currRec s
    rw [if_pos hany, if_pos hany, hkeep, nEntries_readAll]
  · rw [if_neg hany, if_neg hany]

theorem seen_cursorOpen (s : GrnArray) (a : CursorArgs) : (s.cursorOpen a).2.seen = s.seen := by
  rw [cursorOpen_snd]
  split_ifs
  · exact seen_readAll _ _
  · rfl

/-- What the loops see of the ids within the bounds is what is live. -/
theorem GrnArray.Sound.filter_seen (hs : s.Sound) (hm : s.Mapped) (b : Bounds) :
    (b.ids s.header.currRec).filter s.seen = (b.ids s.header.currRec).filter s.bits := by
  apply List.filter_congr
  intro id hid
  obtain ⟨hpos, hle⟩ := (Bounds.mem_ids.mp hid).1
  rw [GrnArray.seen]
  by_cases hnone : s.header.nGarbages = 0
  · rw [decide_eq_true hnone, Bool.true_or, hs.bits_of_no_garbages hnone hpos hle]
  · rw [decide_eq_false hnone, Bool.false_or, Bool.eq_iff_iff, beq_iff_eq]
    exact hs.bitAt_iff hm id

/-- No more ids are live than entries are counted. -/
theorem GrnArray.Sound.length_live_le (hs : s.Sound) (b : Bounds) :
    ((b.ids s.header.currRec).filter s.bits).length ≤ s.header.nEntries := by
  have hnodup : ((b.ids s.header.currRec).filter s.bits).Nodup := (b.nodup_ids _).filter _
  rw [hs.entries, ← List.toFinset_card_of_nodup hnodup, ← Set.ncard_coe_finset]
  refine Set.ncard_le_ncard (fun id hid => ?_) hs.finite
  rw [Finset.mem_coe, List.mem_toFinset, List.mem_filter] at hid
  exact hid.2

/-- **The cursor is opened as a scan.** -/
theorem opened_cursorOpen (hs : s.Sound) (hm : s.Mapped) (hmin : a.min ≤ s.header.currRec)
    (hmax : a.max ≤ s.header.currRec) : (s.cursorOpen a).1.scan.Opened 0x100000000 a.bounds s.header.currRec
      (decide (s.header.nGarbages ≠ 0)) s.seen a.offset a.limit := by
  have hfst := cursorOpen_fst s a
  rw [cursorRange_eq hs.le_max hmin hmax] at hfst
  rw [hfst]
  refine ⟨rfl, rfl, ?_, fun hany => ?_, fun hnone => ?_⟩
  · simp only [ArrayCursor.scan]
    split_ifs with hneg
    · refine .inr ⟨hneg, ?_⟩
      rw [hs.filter_seen hm]
      exact hs.length_live_le a.bounds
    · exact .inl ⟨Int.not_lt.mp hneg, rfl⟩
  · have hany' := of_decide_eq_true hany
    simp only [ArrayCursor.scan, if_pos hany']
    exact skipLoop_fst _ _ _ _ _ _ hany'
  · simp only [ArrayCursor.scan, if_neg (of_decide_eq_false hnone)]
    rfl

/-- **The cursor obeys exactly** when there are garbages, or when the offset is not larger than the
number of live records in the interval. -/
theorem GrnArray.cursorObeys_iff (hs : s.Sound) (hm : s.Mapped) (hmin : a.min ≤ s.header.currRec)
    (hmax : a.max ≤ s.header.currRec) (hoffset : 0 ≤ a.offset) (hint : a.offset < 0x80000000) :
    s.CursorObeys a ↔ s.header.nGarbages ≠ 0 ∨
      a.offset ≤ ((a.bounds.ids s.header.currRec).filter s.bits).length := by
  have hle := hs.le_max
  rw [arrayMax] at hle
  have hiff := (opened_cursorOpen (a := a) hs hm hmin hmax).obeys_iff hmin hmax hoffset (by push_cast; omega)
    (fun hnone id => by
      rw [GrnArray.seen, decide_eq_true (not_not.mp (of_decide_eq_false hnone)), Bool.true_or])
  rw [hs.filter_seen hm, decide_eq_true_iff] at hiff
  rw [← hiff]
  exact (Bounds.obeys_congr nextCall (Scan.next 0x100000000 s.seen 0x100000000) (fun r => r.1.currRec) Scan.curr
    a.offset a.limit (fun r => r.1.scan) (fun r => r.2.seen = s.seen)
    (fun r hr => by
      obtain ⟨hkeep, hnext⟩ := scan_nextCall r
      exact ⟨hkeep.trans hr, by rw [← hr]; exact hnext⟩)
    (fun _ => rfl) (hs.filter_seen hm a.bounds) (seen_cursorOpen s a)).symm

end Groonga.Table
