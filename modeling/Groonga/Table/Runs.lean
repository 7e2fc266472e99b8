import Groonga.Table.Reuse

/-!
# Runs of a table without keys

Additions, deletions, lookups and the steps of cursors come in any order. Each step reads the bits
of some ids, and the list of these ids is known before the step. When every read of a run is
harmless, no addition returns a live id.
-/

namespace Groonga.Table

open Lib

/-! ## What cursors read -/

/-- The ids whose bits `skipLoop` reads. -/
def skipReads (bitAt : ℕ → Option Bool) (tail : ℕ) (dir : ℤ) : ℕ → ℤ → ℕ → List ℕ
  | 0, _, _ => []
  | fuel + 1, offset, currRec =>
    if offset = 0 ∨ currRec = tail then []
    else
      let currRec := toUint32 (currRec + dir)
      let offset := if bitAt currRec = some true then offset - 1 else offset
      currRec :: skipReads bitAt tail dir fuel offset currRec

/-- The ids whose bits `nextLoop` reads, when there are garbages. -/
def nextReads (bitAt : ℕ → Option Bool) (tail : ℕ) (dir : ℤ) : ℕ → ℕ → List ℕ
  | 0, _ => []
  | fuel + 1, currRec =>
    if currRec = tail then []
    else
      let currRec := toUint32 (currRec + dir)
      if bitAt currRec = some true then [currRec]
      else currRec :: nextReads bitAt tail dir fuel currRec

variable {s : GrnArray} {id : ℕ} {ids : List ℕ} {f : Failures}

theorem skipLoop_snd (tail : ℕ) (dir : ℤ) (fuel : ℕ) (offset : ℤ) (currRec : ℕ) (s : GrnArray) :
    (skipLoop tail dir fuel offset currRec s).2 =
      s.readAll (skipReads s.bitAt tail dir fuel offset currRec) := by
  induction fuel generalizing offset currRec s with
  | zero => rfl
  | succ fuel ih =>
    rw [skipLoop, skipReads]
    split_ifs with hend
    · rfl
    · simp only
      generalize toUint32 (currRec + dir) = c
      have hbit := @bitmapAt_fst s c
      have hkeep := @bitAt_bitmapAt s c
      rcases hread : s.bitmapAt c with ⟨b, s'⟩
      rw [hread] at hbit hkeep
      have hall : s.readAll (c :: skipReads s.bitAt tail dir fuel
          (if s.bitAt c = some true then offset - 1 else offset) c) =
            s'.readAll (skipReads s'.bitAt tail dir fuel
              (if b = some true then offset - 1 else offset) c) := by
        rw [hkeep, ← hbit, GrnArray.readAll, List.foldl_cons, hread]
        rfl
      rw [hall]
      rcases b with - | - | - <;> exact ih _ _ _

theorem nextLoop_snd (tail : ℕ) (dir : ℤ) (fuel currRec : ℕ) (s : GrnArray) :
    (nextLoop tail dir fuel currRec s).2.2 =
      if s.header.nGarbages = 0 then s else s.readAll (nextReads s.bitAt tail dir fuel currRec) := by
  induction fuel generalizing currRec s with
  | zero =>
    split_ifs
    · rfl
    · rfl
  | succ fuel ih =>
    rw [nextLoop, nextReads]
    by_cases hend : currRec = tail
    · rw [if_pos hend, if_pos hend]
      split_ifs
      · rfl
      · rfl
    · rw [if_neg hend, if_neg hend]
      simp only
      by_cases hnone : s.header.nGarbages = 0
      · rw [if_pos hnone, if_pos hnone]
      · rw [if_neg hnone, if_neg hnone]
        generalize toUint32 (currRec + dir) = c
        have hbit := @bitmapAt_fst s c
        have hkeep := @bitAt_bitmapAt s c
        have hgarbages := @nGarbages_bitmapAt s c
        rcases hread : s.bitmapAt c with ⟨b, s'⟩
        rw [hread] at hbit hkeep hgarbages
        have hne : s'.header.nGarbages ≠ 0 := by
          rw [hgarbages]
          exact hnone
        have hmore := ih c s'
        rw [if_neg hne, hkeep] at hmore
        have hcons : ∀ ids, s.readAll (c :: ids) = s'.readAll ids := by
          intro ids
          rw [GrnArray.readAll, List.foldl_cons, hread]
          rfl
        rw [← hbit]
        rcases b with - | - | -
        · exact hmore.trans (hcons _).symm
        · exact hmore.trans (hcons _).symm
        · exact (hcons []).symm

theorem cursorOpen_snd (s : GrnArray) (a : CursorArgs) :
    (s.cursorOpen a).2 = if s.header.nGarbages ≠ 0 then
      s.readAll (skipReads s.bitAt (s.cursorRange a).2 (cursorDir a.descending) 0x100000000 a.offset
        (s.cursorRange a).1) else s := by
  rw [GrnArray.cursorOpen]
  rcases s.cursorRange a with ⟨currRec, tail⟩
  simp only
  by_cases hany : s.header.nGarbages ≠ 0
  · rw [if_pos hany, if_pos hany]
    exact skipLoop_snd _ _ _ _ _ _
  · rw [if_neg hany, if_neg hany]

/-! ## Runs -/

/-- The calls of a run. A cursor is opened under a number. -/
inductive ArrayOp where
  | add (f : Failures)
  | delete (id : ℕ) (touchFails : Bool)
  | at' (id : ℕ)
  | getValue (id : ℕ)
  | setValue (id : ℕ) (value : List UInt8)
  | cursorOpen (k : ℕ) (a : CursorArgs)
  | cursorNext (k : ℕ)
deriving DecidableEq, Repr

/-- What happened to a record. -/
inductive Event where
  | nothing
  | added (id : ℕ)
  | deleted (id : ℕ)
deriving DecidableEq, Repr

/-- An array and its cursors. -/
structure Tables where
  array : GrnArray
  cursors : ℕ → ArrayCursor

/-- A new array. -/
def tablesCreate (valueSize : ℕ) : Tables := ⟨arrayCreate valueSize, fun _ => ⟨0, 0, 0, false⟩⟩

/-- A call. -/
def Tables.step (t : Tables) : ArrayOp → Tables
  | .add f => { t with array := (t.array.add f).2 }
  | .delete id touchFails => { t with array := (t.array.deleteById id touchFails).2 }
  | .at' id => { t with array := (t.array.at' id).2 }
  | .getValue id => { t with array := (t.array.getValue id).2 }
  | .setValue id value => { t with array := t.array.setValue id value }
  | .cursorOpen k a =>
    ⟨(t.array.cursorOpen a).2, Function.update t.cursors k (t.array.cursorOpen a).1⟩
  | .cursorNext k =>
    ⟨(t.array.cursorNext (t.cursors k)).2.2,
      Function.update t.cursors k (t.array.cursorNext (t.cursors k)).2.1⟩

/-- What a call does to the records. -/
def Tables.event (t : Tables) : ArrayOp → Event
  | .add f => if (t.array.add f).1 = 0 then .nothing else .added (t.array.add f).1
  | .delete id touchFails => if (t.array.deleteById id touchFails).1 then .deleted id else .nothing
  | .at' _ => .nothing
  | .getValue _ => .nothing
  | .setValue _ _ => .nothing
  | .cursorOpen _ _ => .nothing
  | .cursorNext _ => .nothing

/-- The ids whose bits a call reads. -/
def Tables.reads (t : Tables) : ArrayOp → List ℕ
  | .add _ => []
  | .delete id _ => [id]
  | .at' id => if t.array.header.nGarbages ≠ 0 then [id] else []
  | .getValue id => if t.array.header.nGarbages ≠ 0 then [id] else []
  | .setValue id _ => if t.array.header.nGarbages ≠ 0 then [id] else []
  | .cursorOpen _ a =>
    if t.array.header.nGarbages ≠ 0 then
      skipReads t.array.bitAt (t.array.cursorRange a).2 (cursorDir a.descending) 0x100000000 a.offset
        (t.array.cursorRange a).1
    else []
  | .cursorNext k =>
    if (t.cursors k).rest ≠ 0 ∧ t.array.header.nGarbages ≠ 0 then
      nextReads t.array.bitAt (t.cursors k).tail (cursorDir (t.cursors k).descending) 0x100000000
        (t.cursors k).currRec
    else []

/-- The calls one after another. -/
def Tables.run (t : Tables) (ops : List ArrayOp) : Tables := ops.foldl Tables.step t

/-- What the calls do to the records. -/
def Tables.events (t : Tables) : List ArrayOp → List Event
  | [] => []
  | op :: ops => t.event op :: (t.step op).events ops

/-- The record was added and not deleted since. -/
def isLive (id : ℕ) (events : List Event) : Bool :=
  events.foldl (fun live e => if e = .added id then true else if e = .deleted id then false else live) false

/-- **The ids are handed out rightly** in a run from a new array: no addition returns a live id or
one beyond the next, the entries are counted, and a deleted id comes back at most once. -/
structure HandsOutRightly (valueSize : ℕ) (ops : List ArrayOp) : Prop where
  fresh : ∀ pre op post id, ops = pre ++ op :: post →
    ((tablesCreate valueSize).run pre).event op = .added id →
      isLive id ((tablesCreate valueSize).events pre) = false ∧
        id ≤ ((tablesCreate valueSize).run pre).array.header.currRec + 1
  entries : ∀ pre, pre <+: ops →
    ((tablesCreate valueSize).run pre).array.header.nEntries =
      ((tablesCreate valueSize).run pre).array.setBits.ncard
  once : ∀ pre id, pre <+: ops →
    ((tablesCreate valueSize).events pre).count (.added id) ≤
      ((tablesCreate valueSize).events pre).count (.deleted id) + 1

/-- Every read of the run is harmless. -/
def Tables.ReadsHarmlessly : Tables → List ArrayOp → Prop
  | _, [] => True
  | t, op :: ops => t.array.HarmlessReads (t.reads op) ∧ (t.step op).ReadsHarmlessly ops

instance Tables.decidableReadsHarmlessly : (t : Tables) → (ops : List ArrayOp) →
    Decidable (t.ReadsHarmlessly ops)
  | _, [] => isTrue trivial
  | t, op :: ops =>
    have := decidableReadsHarmlessly (t.step op) ops
    inferInstanceAs (Decidable (_ ∧ _))

/-! ## One call -/

/-- The array after the reads of a call, and after its changes. -/
structure Steps (t : Tables) (op : ArrayOp) : Prop where
  sound : (t.step op).array.Sound
  added : ∀ id, t.event op = .added id → t.array.bits id = false ∧
    id ≤ t.array.header.currRec + 1 ∧ (t.step op).array.bits = Function.update t.array.bits id true
  deleted : ∀ id, t.event op = .deleted id → t.array.bits id = true ∧
    (t.step op).array.bits = Function.update t.array.bits id false
  nothing : t.event op = .nothing → (t.step op).array.bits = t.array.bits

/-- A call that only reads. -/
theorem steps_of_reads {t : Tables} {op : ArrayOp} (hs : t.array.Sound)
    (hreads : t.array.HarmlessReads (t.reads op)) (hevent : t.event op = .nothing)
    (hstep : (t.step op).array = t.array.readAll (t.reads op)) : Steps t op := by
  refine ⟨by rw [hstep]; exact hs.readAll hreads, fun id hid => ?_, fun id hid => ?_, fun _ => ?_⟩
  · rw [hevent] at hid
    cases hid
  · rw [hevent] at hid
    cases hid
  · rw [hstep, bits_readAll]

theorem readAll_singleton : s.readAll [id] = (s.bitmapAt id).2 := rfl

theorem at'_snd : (s.at' id).2 = if s.header.nGarbages ≠ 0 then (s.bitmapAt id).2 else s := by
  rw [GrnArray.at']
  split_ifs
  · rcases s.bitmapAt id with ⟨- | - | -, s'⟩ <;> rfl
  · rfl
  · rfl

theorem getValue_snd : (s.getValue id).2 = if s.header.nGarbages ≠ 0 then (s.bitmapAt id).2 else s := by
  rw [GrnArray.getValue]
  split_ifs
  · rcases s.bitmapAt id with ⟨- | - | -, s'⟩ <;> rfl
  · rfl
  · rfl

/-- The bit of a live record is read as it is. -/
theorem bits_of_bitmapAt {s' : GrnArray} (hread : s.bitmapAt id = (some true, s')) : s.bits id = true := by
  have hbit := @bitmapAt_fst s id
  rw [hread, GrnArray.bitAt] at hbit
  split_ifs at hbit
  exact (Option.some.inj hbit).symm

/-- The value of a live record changes. -/
theorem GrnArray.Sound.setLive {value : ℕ → UInt8} (hs : s.Sound) (hid : s.bits id = true) :
    ({ s with values := Function.update s.values id value } : GrnArray).Sound := by
  obtain ⟨ids, hfree, hnodup, hdead⟩ := hs.free
  refine ⟨hs.le_max, hs.live, hs.entries, hs.total, ids, ?_, hnodup, hdead⟩
  rw [GrnArray.FreeIds] at hfree ⊢
  split_ifs at hfree ⊢ with hcan hcan'
  · refine hfree.congr fun i hi => congrArg (fun value => readNat value 0 4) ?_
    have hne : i ≠ id := fun heq => Bool.false_ne_true ((hdead i hi).2.2.symm.trans (heq ▸ hid))
    exact Function.update_of_ne hne _ _
  · exact absurd hcan hcan'
  · exact absurd ‹_› hcan
  · exact hfree

/-- Without garbages every id that was handed out is live. -/
theorem GrnArray.Sound.bits_of_no_garbages (hs : s.Sound) (hnone : s.header.nGarbages = 0) (hpos : 0 < id)
    (hle : id ≤ s.header.currRec) : s.bits id = true := by
  by_contra hoff
  have hfree : s.IsFree id := ⟨hpos, hle, Bool.eq_false_of_not_eq_true hoff⟩
  exact Nat.ne_of_gt (hs.nGarbages_pos hfree) hnone

theorem GrnArray.Sound.setValue {value : List UInt8} (hs : s.Sound)
    (hread : s.header.nGarbages ≠ 0 → s.HarmlessRead id) :
    (s.setValue id value).Sound ∧ (s.setValue id value).bits = s.bits := by
  rw [GrnArray.setValue]
  split_ifs with hany hout
  · have hsound := hs.bitmapAt (hread hany)
    have hbits := @bits_bitmapAt s id
    rcases hbit : s.bitmapAt id with ⟨b, s'⟩
    rw [hbit] at hsound hbits
    rcases b with - | - | -
    · exact ⟨hsound, hbits⟩
    · exact ⟨hsound, hbits⟩
    · refine ⟨hsound.setLive ?_, hbits⟩
      have hid := bits_of_bitmapAt hbit
      rwa [← hbits] at hid
  · exact ⟨hs, rfl⟩
  · refine ⟨hs.setLive (hs.bits_of_no_garbages (not_not.mp hany) ?_ ?_), rfl⟩
    · omega
    · omega

/-- **What a call does**, when its reads are harmless. -/
theorem steps (t : Tables) (op : ArrayOp) (hs : t.array.Sound)
    (hreads : t.array.HarmlessReads (t.reads op)) : Steps t op := by
  cases op with
  | add f =>
    obtain ⟨hfailed, hadded⟩ := @GrnArray.Sound.add t.array f hs
    by_cases hzero : (t.array.add f).1 = 0
    · have hevent : t.event (.add f) = .nothing := if_pos hzero
      refine ⟨(hfailed hzero).2, fun id hid => ?_, fun id hid => ?_, fun _ => (hfailed hzero).1⟩
      · rw [hevent] at hid
        cases hid
      · rw [hevent] at hid
        cases hid
    · have hevent : t.event (.add f) = .added (t.array.add f).1 := if_neg hzero
      obtain ⟨hoff, hle, hbits, hsound⟩ := hadded hzero
      refine ⟨hsound, fun id hid => ?_, fun id hid => ?_, fun hid => ?_⟩
      · obtain rfl := Event.added.inj (hevent.symm.trans hid)
        exact ⟨hoff, hle, hbits⟩
      · rw [hevent] at hid
        cases hid
      · rw [hevent] at hid
        cases hid
  | delete id touchFails =>
    have hsound := hs.bitmapAt hreads.1
    have hbits := @bits_bitmapAt t.array id
    have hon := @bits_of_bitmapAt t.array id
    rcases hbit : t.array.bitmapAt id with ⟨b, s'⟩
    rw [hbit] at hsound hbits
    by_cases hdone : b = some true ∧ touchFails = false
    · obtain ⟨rfl, rfl⟩ := hdone
      have hevent : t.event (.delete id false) = .deleted id := by
        rw [Tables.event, GrnArray.deleteById, hbit]
        rfl
      have hstep : (t.step (.delete id false)).array = s'.deleteLive id := by
        rw [Tables.step, GrnArray.deleteById, hbit]
        rfl
      have hid := hon hbit
      refine ⟨?_, fun i hi => ?_, fun i hi => ?_, fun hi => ?_⟩
      · rw [hstep]
        exact hsound.deleteLive (by rw [hbits]; exact hid)
      · rw [hevent] at hi
        cases hi
      · obtain rfl := Event.deleted.inj (hevent.symm.trans hi)
        rw [hstep, bits_deleteLive, hbits]
        exact ⟨hid, rfl⟩
      · rw [hevent] at hi
        cases hi
    · have hall : t.array.deleteById id touchFails = (false, s') := by
        rw [GrnArray.deleteById, hbit]
        rcases b with - | - | -
        · rfl
        · rfl
        · cases touchFails with
          | false => exact absurd ⟨rfl, rfl⟩ hdone
          | true => rfl
      refine steps_of_reads hs hreads ?_ ?_
      · rw [Tables.event, hall]
        rfl
      · rw [Tables.step, Tables.reads, hall, readAll_singleton, hbit]
  | at' id =>
    refine steps_of_reads hs hreads rfl ?_
    rw [Tables.step, Tables.reads, at'_snd]
    split_ifs
    · rfl
    · rfl
  | getValue id =>
    refine steps_of_reads hs hreads rfl ?_
    rw [Tables.step, Tables.reads, getValue_snd]
    split_ifs
    · rfl
    · rfl
  | setValue id value =>
    obtain ⟨hsound, hbits⟩ := @GrnArray.Sound.setValue t.array id value hs fun hany => by
      rw [Tables.reads, if_pos hany] at hreads
      exact hreads.1
    refine ⟨hsound, fun i hi => ?_, fun i hi => ?_, fun _ => hbits⟩
    · cases hi
    · cases hi
  | cursorOpen k a =>
    refine steps_of_reads hs hreads rfl ?_
    rw [Tables.step, Tables.reads]
    refine (cursorOpen_snd t.array a).trans ?_
    split_ifs
    · rfl
    · rfl
  | cursorNext k =>
    refine steps_of_reads hs hreads rfl ?_
    rw [Tables.step, Tables.reads, GrnArray.cursorNext]
    have hloop := nextLoop_snd (t.cursors k).tail (cursorDir (t.cursors k).descending) 0x100000000
      (t.cursors k).currRec t.array
    by_cases hrest : (t.cursors k).rest = 0
    · rw [if_pos hrest, if_neg fun h => h.1 hrest]
      rfl
    · rw [if_neg hrest]
      rcases hnext : nextLoop (t.cursors k).tail (cursorDir (t.cursors k).descending) 0x100000000
        (t.cursors k).currRec t.array with ⟨b, c, s'⟩
      rw [hnext] at hloop
      have hs' : s' = t.array.readAll (if (t.cursors k).rest ≠ 0 ∧ t.array.header.nGarbages ≠ 0 then
          nextReads t.array.bitAt (t.cursors k).tail (cursorDir (t.cursors k).descending) 0x100000000
            (t.cursors k).currRec
          else []) := by
        by_cases hnone : t.array.header.nGarbages = 0
        · rw [if_neg fun h => h.2 hnone]
          exact hloop.trans (if_pos hnone)
        · rw [if_pos ⟨hrest, hnone⟩]
          exact hloop.trans (if_neg hnone)
      cases b with
      | false => exact hs'
      | true => exact hs'

/-! ## All calls -/

/-- The bits are those of the live records, and each deletion makes room for one addition. -/
structure Follows (t : Tables) (events : List Event) : Prop where
  sound : t.array.Sound
  live : ∀ id, t.array.bits id = isLive id events
  counts : ∀ id, events.count (.added id) = events.count (.deleted id) + (isLive id events).toNat

theorem isLive_snoc (id : ℕ) (events : List Event) (e : Event) : isLive id (events ++ [e]) =
    if e = .added id then true else if e = .deleted id then false else isLive id events := by
  rw [isLive, List.foldl_append]
  rfl

theorem follows_create (valueSize : ℕ) : Follows (tablesCreate valueSize) [] :=
  ⟨sound_arrayCreate valueSize, fun _ => rfl, fun _ => rfl⟩

/-- **One call** keeps the bits and the counts. -/
theorem Follows.step {t : Tables} {events : List Event} {op : ArrayOp} (hf : Follows t events)
    (hreads : t.array.HarmlessReads (t.reads op)) : Follows (t.step op) (events ++ [t.event op]) := by
  obtain ⟨hsound, hadded, hdeleted, hnothing⟩ := steps t op hf.sound hreads
  refine ⟨hsound, fun i => ?_, fun i => ?_⟩
  · rw [isLive_snoc]
    cases hevent : t.event op with
    | nothing =>
      rw [hnothing hevent, hf.live]
      rfl
    | added id =>
      rw [(hadded id hevent).2.2]
      by_cases hi : i = id
      · subst hi
        rw [Function.update_self, if_pos rfl]
      · rw [Function.update_of_ne hi, if_neg fun heq => hi (Event.added.inj heq).symm, hf.live]
        rfl
    | deleted id =>
      rw [(hdeleted id hevent).2]
      by_cases hi : i = id
      · subst hi
        rw [Function.update_self]
        simp
      · rw [Function.update_of_ne hi, hf.live]
        simp [Ne.symm hi]
  · have hcount := hf.counts i
    rw [isLive_snoc, List.count_append, List.count_append]
    cases hevent : t.event op with
    | nothing => simpa using hcount
    | added id =>
      by_cases hi : id = i
      · subst hi
        have hoff := (hadded id hevent).1
        rw [hf.live] at hoff
        rw [hoff] at hcount
        simpa using hcount
      · simpa [hi] using hcount
    | deleted id =>
      by_cases hi : id = i
      · subst hi
        have hon := (hdeleted id hevent).1
        rw [hf.live] at hon
        rw [hon] at hcount
        simpa using hcount
      · simpa [hi] using hcount

/-- **A run** keeps the bits and the counts, up to each of its calls. -/
theorem Follows.run {t : Tables} {events : List Event} {pre post : List ArrayOp} (hf : Follows t events)
    (hreads : t.ReadsHarmlessly (pre ++ post)) :
    Follows (t.run pre) (events ++ t.events pre) ∧ (t.run pre).ReadsHarmlessly post := by
  induction pre generalizing t events with
  | nil =>
    rw [Tables.events, List.append_nil]
    exact ⟨hf, hreads⟩
  | cons op pre ih =>
    obtain ⟨hfirst, hrest⟩ := hreads
    have hmore := ih (hf.step hfirst) hrest
    rw [List.append_assoc] at hmore
    exact hmore

/-- **The ids are handed out rightly** in every run whose reads are harmless. -/
theorem handsOutRightly_of_readsHarmlessly (valueSize : ℕ) (ops : List ArrayOp)
    (hreads : (tablesCreate valueSize).ReadsHarmlessly ops) : HandsOutRightly valueSize ops := by
  have hbefore : ∀ pre, pre <+: ops →
      Follows ((tablesCreate valueSize).run pre) ((tablesCreate valueSize).events pre) := by
    rintro pre ⟨post, rfl⟩
    exact ((follows_create valueSize).run hreads).1
  refine ⟨?_, fun pre hpre => (hbefore pre hpre).sound.entries, fun pre id hpre => ?_⟩
  · rintro pre op post id rfl hevent
    obtain ⟨hf, hfirst, -⟩ := (follows_create valueSize).run hreads
    obtain ⟨hoff, hle, -⟩ := (steps _ op hf.sound hfirst).added id hevent
    rw [hf.live] at hoff
    exact ⟨hoff, hle⟩
  · have hcount := (hbefore pre hpre).counts id
    have hbool := Bool.toNat_le (isLive id ((tablesCreate valueSize).events pre))
    omega

/-- A record is deleted, another one is looked up, and the first one is used again. -/
theorem handsOutRightly_reuse : HandsOutRightly 0 [.add ⟨false, false, false⟩, .add ⟨false, false, false⟩,
    .delete 1 false, .at' 2, .add ⟨false, false, false⟩] :=
  handsOutRightly_of_readsHarmlessly 0 _ (by decide)

/-- **A lookup can make two additions return one id.** Both records are deleted, the first one is
looked up, and then two records are added: both get the id 1. -/
theorem not_handsOutRightly_lookup : ¬ HandsOutRightly 0 ([.add ⟨false, false, false⟩,
    .add ⟨false, false, false⟩, .delete 1 false, .delete 2 false, .at' 1,
    .add ⟨false, false, false⟩] ++ [.add ⟨false, false, false⟩]) := by
  intro hrightly
  have hfresh := hrightly.fresh _ _ [] 1 rfl (by decide)
  exact absurd hfresh.1 (by decide)

end Groonga.Table
