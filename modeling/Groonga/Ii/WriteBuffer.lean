import Groonga.Ii.Posting
import Groonga.Ii.ByteCode
import Groonga.Lib.SkipChain
import Mathlib

/-!
# The records of a write buffer

New postings of a term do not go into its chunk. They are records in a segment that the
terms of a buffer share, and `buffer_put` links the records of a term to a chain that grows
in the record and the section. A record takes the place of an older one with the same key,
and a record for section 0 that of all the sections of its record.

To be faster than the chain is long, records carry a second link. Where it leads to is a
matter of luck: the first record jumps to the last, appending sets a jump now and then, and a
search that took too many hops leaves one behind. The counters that decide it are kept here
as the source has them, and nothing that is proved depends on them.
-/

namespace Groonga.Ii

/-- `docid`: a record with its section. -/
structure Docid where
  rid : ℕ
  sid : ℕ
deriving DecidableEq, Repr

namespace Docid

instance : LinearOrder Docid :=
  LinearOrder.lift' (fun d => toLex (d.rid, d.sid)) fun a b h => by
    cases a
    cases b
    simpa using h

theorem lt_def {a b : Docid} : a < b ↔ a.rid < b.rid ∨ (a.rid = b.rid ∧ a.sid < b.sid) := by
  change toLex (a.rid, a.sid) < toLex (b.rid, b.sid) ↔ _
  exact Prod.Lex.toLex_lt_toLex

theorem le_def {a b : Docid} : a ≤ b ↔ a.rid < b.rid ∨ (a.rid = b.rid ∧ a.sid ≤ b.sid) := by
  change toLex (a.rid, a.sid) ≤ toLex (b.rid, b.sid) ↔ _
  exact Prod.Lex.toLex_le_toLex

end Docid

namespace WriteBuffer

open Groonga.Lib

/-! ## The segment -/

/-- `buffer_rec` with what `encode_rec` wrote behind it. The links are positions in the segment
in units of four bytes; 0 is none. -/
structure BufferRec where
  docid : Docid
  posting : Posting
  step : ℕ
  jump : ℕ
deriving DecidableEq, Repr

/-- `BUFFER_REC_DELETED`. No record is at the position 1. -/
def BufferRec.deleted (r : BufferRec) : Bool := r.jump = 1

/-- `BUFFER_REC_DEL`. -/
def BufferRec.del (r : BufferRec) : BufferRec := { r with jump := 1 }

/-- The part of `buffer_term` about the records; 16 bit values. -/
structure BufferTerm where
  sizeInBuffer : ℕ
  posInBuffer : ℕ
deriving DecidableEq, Repr

/-- `BUFFER_REC_AT`. -/
abbrev Recs := ℕ → BufferRec

/-- What `encode_rec` keeps of a specification: without `WITH_SECTION` the section is 1, and a
delete is a record without a term frequency. -/
def encodeRec (ii : Layout) (u : Updspec) (deletep : Bool) : Docid × Posting :=
  let tf := if deletep then 0 else u.tf
  (⟨u.rid, ii.storedSid u.sid⟩,
    { tf := tf
      weight := if ii.withWeight && !deletep then u.weight else 0
      pos := if ii.withPosition then u.pos.take tf else [] })

/-- The gaps `encode_rec` writes for the positions. -/
def posGaps : ℕ → List ℕ → List ℕ
  | _, [] => []
  | lpos, p :: ps => (p + 2 ^ 32 - lpos) % 2 ^ 32 :: posGaps p ps

/-- The size `encode_rec` gives: the padded bytes and the two links. -/
def encodeRecSize (ii : Layout) (u : Updspec) (deletep : Bool) : ℕ :=
  let p := (encodeRec ii u deletep).2
  let bytes := grnBEnc u.rid ++ (if ii.withSection then grnBEnc u.sid else []) ++ grnBEnc p.tf ++
    (if ii.withWeight then grnBEnc p.weight else []) ++ grnEncByte (posGaps 0 p.pos)
  (bytes.length + 3) / 4 * 4 + 4

/-! ## Jumps -/

/-- `check_jump`; `true` is `GRN_FILE_CORRUPT`. -/
def checkJump (b : Recs) (i j : ℕ) : Bool :=
  if j = 0 then false
  else if j = 1 then false
  else if (b j).step = i then true
  else decide ((b j).docid ≤ (b i).docid)

/-- The loop of `set_jump_r`, with the rest of `max_jump`; `false` when `ctx->rc` is set. What
the jump of a record was is handed on to the next record. -/
def setJumpR : ℕ → Recs → (r j : ℕ) → Recs × Bool
  | 0, b, _, _ => (b, true)
  | maxJump + 1, b, r, j =>
    if j ≤ 1 then (b, true)
    else if r = j then (b, true)
    else if (b j).deleted then (b, true)
    else if j = (b r).jump then (b, true)
    else if j = (b r).step then (b, true)
    else if checkJump b r j then (b, false)
    else
      let i := (b r).jump
      let b := Function.update b r { b r with jump := j }
      if (b r).step = 0 then (b, true) else setJumpR maxJump b (b r).step i

/-- `max_jump`. -/
def maxJump : ℕ := 100

/-- `GET_NUM_BITS`. -/
def getNumBits (x : ℕ) : ℕ :=
  let n := (x &&& 0x55555555) + (x >>> 1 &&& 0x55555555)
  let n := (n &&& 0x33333333) + (n >>> 2 &&& 0x33333333)
  let n := (n &&& 0x0F0F0F0F) + (n >>> 4 &&& 0x0F0F0F0F)
  let n := (n &&& 0x00FF00FF) + (n >>> 8 &&& 0x00FF00FF)
  (n &&& 0x0000FFFF) + (n >>> 16 &&& 0x0000FFFF)

/-- The loop of `buffer_put` that follows up to `n` jumps. -/
def hop (b : Recs) : ℕ → ℕ → ℕ
  | 0, r => r
  | n + 1, r =>
    if (b r).jump ≤ 1 then r
    else if (b (b r).jump).deleted then r
    else hop b n (b r).jump

/-! ## `buffer_put` -/

/-- What `buffer_put` changes. -/
structure PutState where
  recs : Recs
  bt : BufferTerm
  /-- `ctx->rc` is `GRN_SUCCESS`. -/
  ok : Bool

/-- What `lastp` points to: the field of the term or that of a record. -/
inductive Lastp where
  | posInBuffer
  | step (r : ℕ)

def PutState.load (s : PutState) : Lastp → ℕ
  | .posInBuffer => s.bt.posInBuffer
  | .step r => (s.recs r).step

def PutState.store (s : PutState) (pos : ℕ) : Lastp → PutState
  | .posInBuffer => { s with bt := { s.bt with posInBuffer := pos } }
  | .step r => { s with recs := Function.update s.recs r { s.recs r with step := pos } }

section Store

variable {s : PutState} {pos i : ℕ} {l : Lastp}

@[simp] theorem store_docid : ((s.store pos l).recs i).docid = (s.recs i).docid := by
  cases l with
  | posInBuffer => rfl
  | step r => by_cases h : i = r <;> simp [PutState.store, h]

@[simp] theorem store_posting : ((s.store pos l).recs i).posting = (s.recs i).posting := by
  cases l with
  | posInBuffer => rfl
  | step r => by_cases h : i = r <;> simp [PutState.store, h]

@[simp] theorem store_jump : ((s.store pos l).recs i).jump = (s.recs i).jump := by
  cases l with
  | posInBuffer => rfl
  | step r => by_cases h : i = r <;> simp [PutState.store, h]

@[simp] theorem store_ok : (s.store pos l).ok = s.ok := by cases l <;> rfl

@[simp] theorem store_size : (s.store pos l).bt.sizeInBuffer = s.bt.sizeInBuffer := by
  cases l <;> rfl

theorem store_recs_of_ne (h : l ≠ .step i) : (s.store pos l).recs i = s.recs i := by
  cases l with
  | posInBuffer => rfl
  | step r =>
    have hne : i ≠ r := fun heq => h (by rw [heq])
    simp [PutState.store, hne]

end Store

/-- The local variables of the loop. -/
structure Search where
  last : ℕ
  lastp : Lastp
  idPost : Docid
  reset : Bool
  rStart : ℕ
  idStart : Docid
  vdelta : ℤ
  delta0 : ℤ
  vhops : ℕ
  nhops : ℕ

def Search.start : Search where
  last := 0
  lastp := .posInBuffer
  idPost := ⟨0, 0⟩
  reset := true
  rStart := 0
  idStart := ⟨0, 0⟩
  vdelta := 0
  delta0 := 0
  vhops := 0
  nhops := 0

/-- The difference of two `uint32_t` as an `int`. -/
def int32 (a b : ℕ) : ℤ := ((a : ℤ) - b).bmod (2 ^ 32)

/-- The distance of two ids: that of the records, or of the sections when there is none. -/
def docidDelta (a b : Docid) : ℤ :=
  if int32 a.rid b.rid = 0 then int32 a.sid b.sid else int32 a.rid b.rid

/-- A record some jumps behind `second` gets a jump to the one that was the last. -/
def tailJump (s : PutState) (second last pos : ℕ) : PutState :=
  let r := hop s.recs (getNumBits s.bt.sizeInBuffer) second
  if r = pos then s
  else
    let (recs, ok) := setJumpR maxJump s.recs r last
    { s with recs := recs, ok := s.ok && ok }

/-- The record at the end of `lastp`, with the counter of the term. -/
def linkTail (s : PutState) (l : Lastp) (pos : ℕ) : PutState :=
  let recs := Function.update s.recs pos { s.recs pos with step := 0, jump := 0 }
  let s := { s with recs := recs }.store pos l
  { s with bt := { s.bt with sizeInBuffer := (s.bt.sizeInBuffer + 1) % 2 ^ 16 } }

/-- The record is appended. From the third one on the first record jumps to it, and at every
second one a further jump may be set. -/
def putTail (s : PutState) (σ : Search) (pos : ℕ) : PutState :=
  let size := s.bt.sizeInBuffer
  let s := linkTail s σ.lastp pos
  if size ≤ 1 then s
  else
    let rhead := s.bt.posInBuffer
    let s := { s with recs := Function.update s.recs rhead { s.recs rhead with jump := pos } }
    if s.bt.sizeInBuffer % 2 = 1 then s else tailJump s (s.recs rhead).step σ.last pos

/-- The loop that deletes the sections of a record. -/
def delSections (rid : ℕ) : ℕ → Recs → (r step : ℕ) → Option (Recs × ℕ)
  | 0, _, _, _ => none
  | fuel + 1, b, r, step =>
    if (b r).docid.rid ≠ rid then some (b, step)
    else
      let next := (b r).step
      let b := Function.update b r (b r).del
      if next = 0 then some (b, 0) else delSections rid fuel b next next

/-- The records that make room for the new one, at `rCurr`: the chain behind them. -/
def clear (fuel : ℕ) (b : Recs) (u : Docid) (rCurr : ℕ) : Option (Recs × ℕ) :=
  if u.rid = (b rCurr).docid.rid then
    if u.sid = 0 then delSections u.rid fuel b rCurr rCurr
    else if u.sid = (b rCurr).docid.sid then
      some (Function.update b rCurr (b rCurr).del, (b rCurr).step)
    else some (b, rCurr)
  else some (b, rCurr)

/-- The record is put in front of `rCurr`. -/
def putBefore (fuel : ℕ) (s : PutState) (σ : Search) (pos : ℕ) (u : Docid) (rCurr : ℕ) :
    Option PutState := do
  let jump := (s.recs rCurr).jump
  let (recs, step) ← clear fuel s.recs u rCurr
  let jump := if checkJump recs pos jump then 0 else jump
  let recs := Function.update recs pos { recs pos with step := step, jump := jump }
  return { s with recs := recs }.store pos σ.lastp

/-- After too many hops a jump to the record is left behind. -/
def leaveJump (s : PutState) (σ : Search) (rCurr : ℕ) : PutState × Search :=
  if σ.vhops < σ.nhops then
    let (recs, ok) := setJumpR maxJump s.recs σ.rStart rCurr
    ({ s with recs := recs, ok := s.ok && ok }, σ)
  else (s, { σ with nhops := σ.nhops + 1 })

/-- The counters at a record the search passes. -/
def countHops (s : PutState) (σ : Search) (u : Docid) (rCurr : ℕ) : PutState × Search :=
  let idCurr := (s.recs rCurr).docid
  if σ.reset then
    let delta0 := docidDelta u idCurr
    (s, { σ with
      rStart := rCurr, idStart := idCurr, delta0 := delta0, nhops := 0, vhops := 1,
      vdelta := delta0 >>> 1 })
  else
    let σ :=
      if σ.vdelta < docidDelta idCurr σ.idStart then
        { σ with
          vhops := σ.vhops + 1, vdelta := σ.vdelta + σ.delta0 >>> (σ.vhops + 1),
          rStart := rCurr }
      else σ
    leaveJump s σ rCurr

/-- Where the search goes on: behind the record that `rCurr` jumps to, if that is still before
the new one. -/
def advance (b : Recs) (σ : Search) (u : Docid) (rCurr : ℕ) : Search :=
  let σ := { σ with last := rCurr, lastp := .step rCurr, reset := false }
  let posj := (b rCurr).jump
  if posj ≤ 1 then σ
  else if (b posj).deleted then σ
  else if (b posj).docid < u then { σ with last := posj, lastp := .step posj }
  else { σ with reset := true }

/-- The loop of `buffer_put`. -/
def putLoop (u : Docid) (pos : ℕ) : ℕ → PutState → Search → Option PutState
  | 0, _, _ => none
  | fuel + 1, s, σ =>
    let rCurr := s.load σ.lastp
    if rCurr = 0 then some (putTail s σ pos)
    else
      let idCurr := (s.recs rCurr).docid
      if idCurr < σ.idPost then
        -- a loop is found: the records of the term are given up
        putLoop u pos fuel { s with bt := ⟨0, 0⟩, ok := false } { σ with lastp := .posInBuffer }
      else
        let σ := { σ with idPost := idCurr }
        if u ≤ idCurr then putBefore (fuel + 1) s σ pos u rCurr
        else
          let (s, σ) := countHops s σ u rCurr
          if s.ok then putLoop u pos fuel s (advance s.recs σ u rCurr) else some s

/-- `buffer_put` with the record at `pos`. Positions have 16 bits, so that a chain has fewer
than `2 ^ 16` records; `none` is a loop that does not end. -/
def bufferPut (s : PutState) (pos : ℕ) (e : Docid × Posting) : Option PutState :=
  let recs := Function.update s.recs pos { s.recs pos with docid := e.1, posting := e.2 }
  putLoop e.1 pos (2 ^ 16 + 1) { s with recs := recs } .start

/-! ## The chain of a term -/

/-- The records as cells with jumps. -/
def cells (b : Recs) : Cells Docid where
  key i := (b i).docid
  step i := (b i).step
  jump i := (b i).jump
  gone i := (b i).jump = 1

/-- The positions `used` hold the records of the term, and `xs` is its chain. -/
structure TermInv (b : Recs) (bt : BufferTerm) (used : Set ℕ) (xs : List ℕ) : Prop where
  skip : SkipChain (cells b) used bt.posInBuffer xs
  two_le : ∀ x ∈ used, 2 ≤ x
  size_eq : xs = [] → bt.sizeInBuffer = 0

/-- From `b` to `b'` only jumps of records in `used` changed, and none is deleted or brought
back by it. -/
structure JumpsOnly (used : Set ℕ) (b b' : Recs) : Prop where
  docid : ∀ i, (b' i).docid = (b i).docid
  posting : ∀ i, (b' i).posting = (b i).posting
  step : ∀ i, (b' i).step = (b i).step
  deleted : ∀ i, (b' i).jump = 1 ↔ (b i).jump = 1
  outside : ∀ i, i ∉ used → b' i = b i

namespace JumpsOnly

variable {used : Set ℕ} {b b' b'' : Recs} {i j : ℕ}

theorem refl (b : Recs) : JumpsOnly used b b :=
  ⟨fun _ => rfl, fun _ => rfl, fun _ => rfl, fun _ => Iff.rfl, fun _ _ => rfl⟩

theorem trans (h : JumpsOnly used b b') (h' : JumpsOnly used b' b'') : JumpsOnly used b b'' where
  docid i := (h'.docid i).trans (h.docid i)
  posting i := (h'.posting i).trans (h.posting i)
  step i := (h'.step i).trans (h.step i)
  deleted i := (h'.deleted i).trans (h.deleted i)
  outside i hi := (h'.outside i hi).trans (h.outside i hi)

theorem setJump (hi : i ∈ used) (hlive : (b i).jump ≠ 1) (hj : j ≠ 1) :
    JumpsOnly used b (Function.update b i { b i with jump := j }) := by
  refine ⟨fun k => ?_, fun k => ?_, fun k => ?_, fun k => ?_, fun k hk => ?_⟩
  all_goals by_cases hki : k = i
  all_goals first
    | (subst hki; simp [hlive, hj]; done)
    | (simp [hki]; done)
    | exact absurd (hki ▸ hi) hk

end JumpsOnly

section Jumps

variable {b : Recs} {used : Set ℕ} {start : ℕ} {xs : List ℕ} {r j : ℕ}

/-- A jump of a record in the chain is set to one further ahead. -/
theorem skipChain_setJump (h : SkipChain (cells b) used start xs) (hr : r ∈ xs) (hj : j ∈ used)
    (hj1 : j ≠ 1) (hlt : (b r).docid < (b j).docid) :
    SkipChain (cells (Function.update b r { b r with jump := j })) used start xs := by
  have hlive : (b r).jump ≠ 1 := h.not_gone hr
  have honly := JumpsOnly.setJump (h.mem_used hr) hlive hj1
  refine h.setJump (h.mem_used hr) hj hlt (funext honly.docid) (funext honly.step)
    honly.deleted fun z => ?_
  by_cases hz : z = r
  · subst hz
    simp [cells]
  · simp [cells, hz]

/-- Jumping ahead is never refused. -/
theorem checkJump_eq_false (h : SkipChain (cells b) used start xs) (hj : j ∈ used) (hr : r ≠ 0)
    (hlt : (b r).docid < (b j).docid) : checkJump b r j = false := by
  have hstep : (b j).step ≠ r := by
    rintro rfl
    rcases h.step_ahead j hj with h0 | ⟨-, hahead⟩
    · exact hr h0
    · exact lt_asymm hlt hahead
  simp [checkJump, hstep, hlt.not_ge]

/-- **`set_jump_r` keeps the chain.** Each jump it sets leads from a record of the chain to one
further ahead, and so the check before it succeeds. -/
theorem setJumpR_spec (h : SkipChain (cells b) used start xs) (htwo : ∀ x ∈ used, 2 ≤ x)
    (hr : r ∈ xs) (hj : 1 < j → j ∈ used ∧ ((b j).jump = 1 ∨ (b r).docid ≤ (b j).docid)) (n : ℕ) :
    ∃ b', setJumpR n b r j = (b', true) ∧ JumpsOnly used b b' ∧
      SkipChain (cells b') used start xs := by
  induction n generalizing b r j with
  | zero => exact ⟨b, rfl, .refl b, h⟩
  | succ n ih =>
    have hstop : ∃ b', (b, true) = (b', true) ∧ JumpsOnly used b b' ∧
        SkipChain (cells b') used start xs := ⟨b, rfl, .refl b, h⟩
    rw [setJumpR]
    split_ifs with h1 hself hdel hjump hstep hcheck
    · exact hstop
    · exact hstop
    · exact hstop
    · exact hstop
    · exact hstop
    all_goals
      obtain ⟨hused, hle⟩ := hj (not_le.1 h1)
      have hjx : j ∈ xs := (h.live j).2 ⟨hused, fun hg => hdel (by simpa [BufferRec.deleted])⟩
      have hlt : (b r).docid < (b j).docid := by
        rcases hle with hgone | hle
        · exact absurd (by simpa [BufferRec.deleted]) hdel
        · exact lt_of_le_of_ne hle fun heq => hself (h.key_inj hr hjx heq)
    · have hr0 : r ≠ 0 := fun h0 => absurd (htwo r (h.mem_used hr)) (by simp [h0])
      rw [checkJump_eq_false h hused hr0 hlt] at hcheck
      exact absurd hcheck (by simp)
    · have hj1 : j ≠ 1 := fun h1' => h1 h1'.le
      have honly : JumpsOnly used b (Function.update b r { b r with jump := j }) :=
        .setJump (h.mem_used hr) (h.not_gone hr) hj1
      have hskip := skipChain_setJump h hr hused hj1 hlt
      set b₁ := Function.update b r { b r with jump := j } with hb₁
      change ∃ b', (if (b₁ r).step = 0 then (b₁, true)
        else setJumpR n b₁ (b₁ r).step (b r).jump) = (b', true) ∧ _
      have hstep₁ : (b₁ r).step = (b r).step := honly.step r
      have hnext0 : (b r).step ≠ 0 := (h.step_le hr hjx hlt).1
      rw [hstep₁, if_neg hnext0]
      -- the old jump is handed on: it led further ahead than the next record
      obtain ⟨b₂, hrun, honly₂, hskip₂⟩ := ih hskip (r := (b r).step) (j := (b r).jump)
        (h.step_mem hr hnext0) fun hi => by
          rcases h.jump_ahead r (h.mem_used hr) (h.not_gone hr) with h0 | ⟨hiused, hilt⟩
          · have h0' : (b r).jump = 0 := h0
            omega
          · refine ⟨hiused, ?_⟩
            rw [honly.deleted, honly.docid, honly.docid]
            by_cases hg : (b (b r).jump).jump = 1
            · exact .inl hg
            · exact .inr (h.step_le hr ((h.live _).2 ⟨hiused, hg⟩) hilt).2
      exact ⟨b₂, hrun, honly.trans honly₂, hskip₂⟩

/-- Following jumps stays in the chain. -/
theorem hop_mem (h : SkipChain (cells b) used start xs) (hr : r ∈ xs) (n : ℕ) :
    hop b n r ∈ xs := by
  induction n generalizing r with
  | zero => exact hr
  | succ n ih =>
    rw [hop]
    split_ifs with h1 hdel
    · exact hr
    · exact hr
    · rcases h.jump_ahead r (h.mem_used hr) (h.not_gone hr) with h0 | ⟨hused, -⟩
      · have h0' : (b r).jump = 0 := h0
        omega
      · exact ih ((h.live _).2 ⟨hused, fun hg => hdel (by simpa [BufferRec.deleted])⟩)

end Jumps

/-! ## Clearing the way for a record -/

/-- What a record makes vanish: its own key, and all the sections when it is for section 0. -/
def Shadows (u d : Docid) : Prop := d = u ∨ (u.sid = 0 ∧ d.rid = u.rid)

instance (u d : Docid) : Decidable (Shadows u d) := by unfold Shadows; infer_instance

/-- The records `dead` are marked. -/
def mark (b : Recs) (dead : List ℕ) : Recs := fun i => if i ∈ dead then (b i).del else b i

section Clear

variable {b : Recs} {dead : List ℕ} {i r : ℕ} {suf : List ℕ} {u : Docid}

@[simp] theorem mark_nil : mark b [] = b := by funext i; simp [mark]

@[simp] theorem mark_docid : (mark b dead i).docid = (b i).docid := by
  unfold mark
  split_ifs <;> rfl

@[simp] theorem mark_posting : (mark b dead i).posting = (b i).posting := by
  unfold mark
  split_ifs <;> rfl

@[simp] theorem mark_step : (mark b dead i).step = (b i).step := by
  unfold mark
  split_ifs <;> rfl

theorem mark_jump_eq_one : (mark b dead i).jump = 1 ↔ (b i).jump = 1 ∨ i ∈ dead := by
  unfold mark
  split_ifs with h <;> simp [h, BufferRec.del]

theorem mark_of_notMem (h : i ∉ dead) : mark b dead i = b i := by simp [mark, h]

theorem mark_cons (h : r ∉ dead) : mark (Function.update b r (b r).del) dead = mark b (r :: dead) := by
  funext i
  by_cases hi : i = r
  · subst hi
    simp [mark, h]
  · simp [mark, hi]

/-- The loop marks the records of `rid` that follow one another. -/
theorem delSections_eq {rid fuel : ℕ} (hchain : Chain (fun i => (b i).step) r suf)
    (hnodup : suf.Nodup) (hr : r ≠ 0) (hfuel : suf.length < fuel) :
    delSections rid fuel b r r =
      some (mark b (suf.takeWhile fun i => (b i).docid.rid = rid),
        (suf.dropWhile fun i => (b i).docid.rid = rid).head?.getD 0) := by
  induction fuel generalizing b r suf with
  | zero => exact absurd hfuel (by omega)
  | succ fuel ih =>
    obtain ⟨rest, rfl, hrest⟩ := hchain.pop hr
    rw [delSections]
    by_cases hrid : (b r).docid.rid = rid
    · have hnotin : r ∉ rest := (List.nodup_cons.1 hnodup).1
      rw [if_neg (not_not.2 hrid), List.takeWhile_cons_of_pos (by simpa using hrid),
        List.dropWhile_cons_of_pos (by simpa using hrid)]
      dsimp only
      by_cases hnext : (b r).step = 0
      · have hnil : rest = [] := by
          cases rest with
          | nil => rfl
          | cons y rest => exact absurd (hnext ▸ hrest.1).symm hrest.2.1
        subst hnil
        rw [if_pos hnext, ← mark_cons (by simp)]
        simp
      · rw [if_neg hnext, @ih _ _ rest ?_ (List.nodup_cons.1 hnodup).2 hnext (by simpa using hfuel)]
        · have hsame : ∀ i, ((Function.update b r (b r).del) i).docid = (b i).docid := by
            intro i
            by_cases hi : i = r
            · subst hi
              simp [BufferRec.del]
            · simp [hi]
          simp only [hsame]
          rw [mark_cons]
          exact fun hmem => hnotin (List.takeWhile_subset _ hmem)
        · refine hrest.congr fun i hi => ?_
          have hne : i ≠ r := fun h => hnotin (h ▸ hi)
          simp [hne]
    · rw [if_pos hrid, List.takeWhile_cons_of_neg (by simpa using hrid),
        List.dropWhile_cons_of_neg (by simpa using hrid)]
      simp

/-- **What makes room for a record** are the records it shadows; they are the first ones from
its key on. -/
theorem clear_spec {fuel : ℕ} (hchain : Chain (fun i => (b i).step) r suf)
    (hsorted : suf.Pairwise fun x y => (b x).docid < (b y).docid) (hr : r ≠ 0)
    (hu : u ≤ (b r).docid) (hfuel : suf.length < fuel) :
    ∃ dead post, suf = dead ++ post ∧
      clear fuel b u r = some (mark b dead, post.head?.getD 0) ∧
      (∀ x ∈ dead, Shadows u (b x).docid) ∧
      ∀ x ∈ post, u < (b x).docid ∧ ¬ Shadows u (b x).docid := by
  have hnodup : suf.Nodup := hsorted.imp fun hlt heq => by rw [heq] at hlt; exact lt_irrefl _ hlt
  obtain ⟨rest, rfl, hrest⟩ := hchain.pop hr
  have hpairs := List.pairwise_cons.1 hsorted
  have hafter : ∀ x ∈ rest, u < (b x).docid := fun x hx => hu.trans_lt (hpairs.1 x hx)
  unfold clear
  split_ifs with hrid h0 hsid
  · rw [delSections_eq hchain hnodup hr hfuel]
    refine ⟨_, _, (List.takeWhile_append_dropWhile).symm, rfl, fun x hx => ?_, fun x hx => ?_⟩
    · have := List.mem_takeWhile_imp hx
      exact .inr ⟨h0, by simpa using this⟩
    · -- behind the first record of another id all ids are larger
      have hlarger : ∀ y ∈ (r :: rest).dropWhile fun i => (b i).docid.rid = u.rid,
          u.rid < (b y).docid.rid := by
        generalize hdrop : (r :: rest).dropWhile (fun i => decide ((b i).docid.rid = u.rid)) = post
        cases post with
        | nil => simp
        | cons z post =>
          have hz : (b z).docid.rid ≠ u.rid := by
            have := List.head_dropWhile_not (fun i => decide ((b i).docid.rid = u.rid))
              (l := r :: rest) (by rw [hdrop]; simp)
            simpa [hdrop] using this
          have hsub : (z :: post).Sublist (r :: rest) := hdrop ▸ List.dropWhile_sublist _
          have hzmem : z ∈ r :: rest := hsub.subset List.mem_cons_self
          have hz' : u.rid < (b z).docid.rid := by
            have hle : u ≤ (b z).docid := by
              rcases List.mem_cons.1 hzmem with rfl | hz
              · exact hu
              · exact (hafter z hz).le
            rw [Docid.le_def] at hle
            omega
          intro y hy
          rcases List.mem_cons.1 hy with rfl | hy
          · exact hz'
          · have hlt := (List.pairwise_cons.1 (hsorted.sublist hsub)).1 y hy
            rw [Docid.lt_def] at hlt
            omega
      have hx' := hlarger x hx
      refine ⟨Docid.lt_def.2 (.inl hx'), ?_⟩
      rintro (rfl | ⟨-, heq⟩)
      · exact lt_irrefl _ hx'
      · omega
  · refine ⟨[r], rest, rfl, ?_, ?_, fun x hx => ⟨hafter x hx, ?_⟩⟩
    · rw [← mark_cons (by simp), mark_nil, ← hrest.start_eq]
    · intro x hx
      rw [List.mem_singleton.1 hx]
      refine .inl ?_
      cases hd : (b r).docid
      cases u
      simp_all
    · rintro (heq | ⟨h0', -⟩)
      · exact (hafter x hx).ne heq.symm
      · exact h0 h0'
  · refine ⟨[], r :: rest, rfl, by simp, by simp, fun x hx => ?_⟩
    have hur : u < (b r).docid := lt_of_le_of_ne hu fun heq => hsid (by rw [heq])
    have hux : u < (b x).docid := by
      rcases List.mem_cons.1 hx with rfl | hx
      · exact hur
      · exact hafter x hx
    refine ⟨hux, ?_⟩
    rintro (heq | ⟨h0', -⟩)
    · exact hux.ne heq.symm
    · exact h0 h0'
  · refine ⟨[], r :: rest, rfl, by simp, by simp, fun x hx => ?_⟩
    have hur : u.rid < (b r).docid.rid := by
      rw [Docid.le_def] at hu
      omega
    have hux : u.rid < (b x).docid.rid := by
      rcases List.mem_cons.1 hx with rfl | hx
      · exact hur
      · have := hpairs.1 x hx
        rw [Docid.lt_def] at this
        omega
    refine ⟨Docid.lt_def.2 (.inl hux), ?_⟩
    rintro (rfl | ⟨-, heq⟩)
    · exact lt_irrefl _ hux
    · omega

end Clear

/-! ## Putting a record into the chain -/

/-- `lastp` is the link behind the records `pre`. -/
def Places (σ : Search) (pre : List ℕ) : Prop :=
  (pre = [] ∧ σ.lastp = .posInBuffer) ∨
    (pre.getLast? = some σ.last ∧ σ.lastp = .step σ.last)

/-- The search stands behind the records `pre` of the chain, and all of these come before the
new one. -/
structure Searching (s : PutState) (used : Set ℕ) (pre suf : List ℕ) (u : Docid) (σ : Search) :
    Prop where
  inv : TermInv s.recs s.bt used (pre ++ suf)
  ok : s.ok = true
  before : ∀ x ∈ pre, (s.recs x).docid < u
  places : Places σ pre
  idPost_le : ∀ x ∈ suf, σ.idPost ≤ (s.recs x).docid
  started : σ.reset = false → σ.rStart ∈ pre

/-- The record `e` is at `pos` in the chain, and what it shadows is not. -/
structure PutDone (b : Recs) (used : Set ℕ) (xs : List ℕ) (pos : ℕ) (e : Docid × Posting)
    (s : PutState) (xs' : List ℕ) : Prop where
  inv : TermInv s.recs s.bt (insert pos used) xs'
  ok : s.ok = true
  docid_pos : (s.recs pos).docid = e.1
  posting_pos : (s.recs pos).posting = e.2
  docid : ∀ x ∈ used, (s.recs x).docid = (b x).docid
  posting : ∀ x ∈ used, (s.recs x).posting = (b x).posting
  outside : ∀ i, i ∉ used → i ≠ pos → s.recs i = b i
  mem : ∀ x, x ∈ xs' ↔ x = pos ∨ (x ∈ xs ∧ ¬ Shadows e.1 (b x).docid)

section Put

variable {s : PutState} {b : Recs} {used : Set ℕ} {xs pre dead post suf : List ℕ} {σ : Search}
  {pos : ℕ} {e : Docid × Posting}

/-- Jumps that were set on the way do not matter. -/
theorem PutDone.of_jumpsOnly {b₁ : Recs} {xs' : List ℕ} (h : PutDone b₁ used xs pos e s xs')
    (hj : JumpsOnly used b b₁) : PutDone b used xs pos e s xs' where
  inv := h.inv
  ok := h.ok
  docid_pos := h.docid_pos
  posting_pos := h.posting_pos
  docid x hx := (h.docid x hx).trans (hj.docid x)
  posting x hx := (h.posting x hx).trans (hj.posting x)
  outside i hi hpos := (h.outside i hi hpos).trans (hj.outside i hi)
  mem x := by rw [h.mem x, hj.docid x]

/-- The value of `*lastp`. -/
theorem Searching.load_eq (h : Searching s used pre suf e.1 σ) :
    s.load σ.lastp = suf.head?.getD 0 := by
  have hchain := h.inv.skip.chain.drop
  rw [← hchain.start_eq]
  rcases h.places with ⟨rfl, hl⟩ | ⟨hlast, hl⟩
  · rw [hl]
    rfl
  · rw [hl, linkAt, hlast]
    rfl

/-- **The new record is linked**: from `b` on, where the chain is `pre ++ dead ++ post`, the
records `dead` are marked, the new one leads to `post`, and `lastp` is set to it. -/
theorem putDone_store (hinv : TermInv b s.bt used (pre ++ dead ++ post))
    (hbefore : ∀ x ∈ pre, (b x).docid < e.1) (hplaces : Places σ pre)
    (hpos : pos ∉ used) (htwo : 2 ≤ pos) (hok : s.ok = true)
    (hpost : ∀ x ∈ post, e.1 < (b x).docid ∧ ¬ Shadows e.1 (b x).docid)
    (hdead : ∀ x ∈ dead, Shadows e.1 (b x).docid)
    (hrecs : ∀ i, i ≠ pos → s.recs i = mark b dead i)
    (hdocid : (s.recs pos).docid = e.1) (hposting : (s.recs pos).posting = e.2)
    (hstep : (s.recs pos).step = post.head?.getD 0)
    (hjump : (s.recs pos).jump = 0 ∨
      ((s.recs pos).jump ∈ used ∧ e.1 < (b (s.recs pos).jump).docid)) :
    PutDone b used (pre ++ dead ++ post) pos e (s.store pos σ.lastp) (pre ++ pos :: post) := by
  have hne : ∀ y ∈ used, y ≠ pos := fun y hy heq => hpos (heq ▸ hy)
  have hlastUsed : ∀ y ∈ pre.getLast?, y ∈ used := fun y hy =>
    hinv.skip.mem_used (by simp [List.mem_of_getLast? hy])
  have hdocids : ∀ y ∈ used, ((s.store pos σ.lastp).recs y).docid = (b y).docid := fun y hy => by
    rw [store_docid, hrecs y (hne y hy), mark_docid]
  have hkeep : ∀ y, y ∉ pre.getLast? →
      (s.store pos σ.lastp).recs y = s.recs y := fun y hy => by
    refine store_recs_of_ne fun hl => hy ?_
    rcases hplaces with ⟨-, hl'⟩ | ⟨hlast, hl'⟩
    · rw [hl'] at hl
      cases hl
    · rw [hl'] at hl
      cases hl
      exact hlast
  have hposLast : pos ∉ pre.getLast? := fun h => hpos (hlastUsed pos h)
  have hjump1 : (s.recs pos).jump ≠ 1 := by
    rcases hjump with h0 | ⟨hused, -⟩
    · rw [h0]
      decide
    · have := hinv.two_le _ hused
      omega
  have hskip : SkipChain (cells (s.store pos σ.lastp).recs) (insert pos used)
      (s.store pos σ.lastp).bt.posInBuffer (pre ++ pos :: post) := by
    refine hinv.skip.splice (k := e.1) hpos (by omega) hbefore (fun y hy => (hpost y hy).1)
      hdocids ?_ ?_ ?_ ?_ ?_ ?_ ?_ ?_ ?_
    · change ((s.store pos σ.lastp).recs pos).docid = e.1
      rw [store_docid, hdocid]
    · intro hpre
      rcases hplaces with ⟨hnil, -⟩ | ⟨-, hl⟩
      · exact absurd hnil hpre
      · rw [hl]
        rfl
    · rcases hplaces with ⟨rfl, hl⟩ | ⟨hlast, hl⟩
      · rw [hl]
        rfl
      · rw [linkAt, hlast, hl]
        simp [cells, PutState.store]
    · intro y hy hyl
      change ((s.store pos σ.lastp).recs y).step = (b y).step
      rw [hkeep y hyl, hrecs y (hne y hy), mark_step]
    · change ((s.store pos σ.lastp).recs pos).step = _
      rw [hkeep pos hposLast, hstep]
    · intro y hy hyd
      change ((s.store pos σ.lastp).recs y).jump = (b y).jump
      rw [store_jump, hrecs y (hne y hy), mark_of_notMem hyd]
    · change ((s.store pos σ.lastp).recs pos).jump = 0 ∨ _
      rw [store_jump]
      exact hjump.imp_right fun h => by
        change ((s.store pos σ.lastp).recs pos).jump ∈ used ∧
          e.1 < (b ((s.store pos σ.lastp).recs pos).jump).docid
        rwa [store_jump]
    · intro y hy
      change ((s.store pos σ.lastp).recs y).jump = 1 ↔ (b y).jump = 1 ∨ y ∈ dead
      rw [store_jump, hrecs y (hne y hy), mark_jump_eq_one]
    · change ¬ ((s.store pos σ.lastp).recs pos).jump = 1
      rwa [store_jump]
  refine ⟨⟨hskip, ?_, by simp⟩, by rw [store_ok, hok], by rw [store_docid, hdocid],
    by rw [store_posting, hposting], hdocids, fun y hy => ?_, fun i hi hip => ?_, fun x => ?_⟩
  · rintro x (rfl | hx)
    · exact htwo
    · exact hinv.two_le x hx
  · rw [store_posting, hrecs y (hne y hy), mark_posting]
  · have hid : i ∉ dead := fun h => hi (hinv.skip.mem_used (by simp [h]))
    rw [hkeep i fun h => hi (hlastUsed i h), hrecs i hip, mark_of_notMem hid]
  · simp only [List.mem_append, List.mem_cons]
    have hpre : x ∈ pre → ¬ Shadows e.1 (b x).docid := by
      rintro hx (heq | ⟨h0, hrid⟩)
      · exact (hbefore x hx).ne heq
      · have := hbefore x hx
        rw [Docid.lt_def] at this
        omega
    have hd := hdead x
    have hp := hpost x
    by_cases hxp : x = pos
    · simp [hxp]
    · simp only [hxp, false_or]
      tauto

/-- Jumps that are set afterwards do not matter. -/
theorem PutDone.jumps {xs' : List ℕ} {b' : Recs} {n : ℕ} (h : PutDone b used xs pos e s xs')
    (hj : JumpsOnly (insert pos used) s.recs b')
    (hskip : SkipChain (cells b') (insert pos used) s.bt.posInBuffer xs') :
    PutDone b used xs pos e ⟨b', ⟨n, s.bt.posInBuffer⟩, true⟩ xs' where
  inv := ⟨hskip, h.inv.two_le, fun hnil => by
    have := (h.mem pos).2 (.inl rfl)
    simp [hnil] at this⟩
  ok := rfl
  docid_pos := (hj.docid pos).trans h.docid_pos
  posting_pos := (hj.posting pos).trans h.posting_pos
  docid x hx := (hj.docid x).trans (h.docid x hx)
  posting x hx := (hj.posting x).trans (h.posting x hx)
  outside i hi hip := (hj.outside i (by simp [hi, hip])).trans (h.outside i hi hip)
  mem := h.mem

/-- The record behind which the search stands is the last one of `pre`. -/
theorem Searching.le_last (h : Searching s used pre suf e.1 σ) {x : ℕ} (hx : x ∈ pre) :
    σ.last ∈ pre ∧ (s.recs x).docid ≤ (s.recs σ.last).docid := by
  rcases h.places with ⟨rfl, -⟩ | ⟨hlast, -⟩
  · simp at hx
  · have hmem : σ.last ∈ pre := List.mem_of_getLast? hlast
    refine ⟨hmem, ?_⟩
    obtain ⟨init, rfl⟩ := List.getLast?_eq_some_iff.1 hlast
    have hsorted := (List.pairwise_append.1 h.inv.skip.sorted).1
    rcases List.mem_append.1 hx with hx | hx
    · exact ((List.pairwise_append.1 hsorted).2.2 x hx σ.last (by simp)).le
    · rw [List.mem_singleton.1 hx]

/-- The appended record is linked behind the others. -/
theorem linkTail_spec (h : Searching s used pre [] e.1 σ) (hpos : pos ∉ used) (htwo : 2 ≤ pos)
    (hdocid : (s.recs pos).docid = e.1) (hposting : (s.recs pos).posting = e.2) :
    PutDone s.recs used pre pos e (linkTail s σ.lastp pos) (pre ++ [pos]) := by
  have hinv : TermInv s.recs s.bt used (pre ++ [] ++ []) := by simpa using h.inv
  set s₁ : PutState := { s with
    recs := Function.update s.recs pos { s.recs pos with step := 0, jump := 0 } } with hs₁
  have hdone : PutDone s.recs used (pre ++ [] ++ []) pos e (s₁.store pos σ.lastp)
      (pre ++ [pos]) := by
    refine putDone_store (s := s₁) hinv h.before h.places hpos htwo h.ok (by simp) (by simp)
      (fun i hi => ?_) ?_ ?_ ?_ ?_
    · simp [hs₁, hi]
    · simpa [hs₁] using hdocid
    · simpa [hs₁] using hposting
    · simp [hs₁]
    · simp [hs₁]
  simp only [List.append_nil] at hdone
  have hlinked := hdone.jumps (n := ((s₁.store pos σ.lastp).bt.sizeInBuffer + 1) % 2 ^ 16)
    (.refl _) hdone.inv.skip
  rw [← hdone.ok] at hlinked
  exact hlinked

/-- The jump that is set after appending leads to the record before the appended one. -/
theorem tailJump_spec {second last : ℕ} (h : PutDone b used pre pos e s (pre ++ [pos]))
    (hsecond : second ∈ pre ++ [pos])
    (hlast : ∀ x ∈ pre, last ∈ pre ∧ (b x).docid ≤ (b last).docid) :
    PutDone b used pre pos e (tailJump s second last pos) (pre ++ [pos]) := by
  unfold tailJump
  dsimp only
  generalize hr : hop s.recs (getNumBits s.bt.sizeInBuffer) second = r
  have hrmem : r ∈ pre ++ [pos] := hr ▸ hop_mem h.inv.skip hsecond _
  split_ifs with hrpos
  · exact h
  · have hrpre : r ∈ pre := by simpa [hrpos] using hrmem
    obtain ⟨hlastmem, hle⟩ := hlast r hrpre
    have hold : ∀ y ∈ pre, y ∈ used := fun y hy => by
      have hne : y ≠ pos := fun heq => by
        have hnodup := h.inv.skip.nodup
        rw [heq] at hy
        exact (List.nodup_append.1 hnodup).2.2 pos hy pos (by simp) rfl
      simpa [hne] using h.inv.skip.mem_used (x := y) (by simp [hy])
    obtain ⟨b', hrun, honly, hskip⟩ := setJumpR_spec h.inv.skip h.inv.two_le hrmem
      (j := last) (fun _ => ⟨Set.mem_insert_of_mem _ (hold last hlastmem), .inr (by
        rw [h.docid r (hold r hrpre), h.docid last (hold last hlastmem)]
        exact hle)⟩) maxJump
    rw [hrun, h.ok]
    exact h.jumps honly hskip

/-- **Appending a record.** -/
theorem putTail_spec (h : Searching s used pre [] e.1 σ) (hpos : pos ∉ used) (htwo : 2 ≤ pos)
    (hdocid : (s.recs pos).docid = e.1) (hposting : (s.recs pos).posting = e.2) :
    PutDone s.recs used pre pos e (putTail s σ pos) (pre ++ [pos]) := by
  have hdone := linkTail_spec h hpos htwo hdocid hposting
  unfold putTail
  set s₁ := linkTail s σ.lastp pos with hs₁
  dsimp only
  by_cases hsmall : s.bt.sizeInBuffer ≤ 1
  · rw [if_pos hsmall]
    exact hdone
  · have hpre : pre ≠ [] := by
      rintro rfl
      have hzero : s.bt.sizeInBuffer = 0 := h.inv.size_eq rfl
      omega
    have hhead : s₁.bt.posInBuffer ∈ pre := by
      obtain ⟨x, rest, rfl⟩ := List.exists_cons_of_ne_nil hpre
      rw [hdone.inv.skip.chain.start_eq]
      simp
    have hlt : (s₁.recs s₁.bt.posInBuffer).docid < (s₁.recs pos).docid := by
      rw [hdone.docid _ (h.inv.skip.mem_used (by simpa using hhead)), hdone.docid_pos]
      exact h.before _ hhead
    have hposx : pos ∈ pre ++ [pos] := by simp
    have hmem : s₁.bt.posInBuffer ∈ pre ++ [pos] := by simp [hhead]
    have honly : JumpsOnly (insert pos used) s₁.recs (Function.update s₁.recs s₁.bt.posInBuffer
        { s₁.recs s₁.bt.posInBuffer with jump := pos }) :=
      .setJump (hdone.inv.skip.mem_used hmem) (hdone.inv.skip.not_gone hmem) (by omega)
    have hskip := skipChain_setJump hdone.inv.skip hmem (hdone.inv.skip.mem_used hposx)
      (by omega) hlt
    have hjumped := hdone.jumps (n := s₁.bt.sizeInBuffer) honly hskip
    rw [← hdone.ok] at hjumped
    rw [if_neg hsmall]
    split_ifs with hodd
    · exact hjumped
    · refine tailJump_spec hjumped ?_ fun x hx => h.le_last hx
      -- the second record of the chain exists, as the appended one is behind the first
      refine hskip.step_mem hmem (hskip.step_le hmem hposx ?_).1
      change ((Function.update s₁.recs s₁.bt.posInBuffer _) s₁.bt.posInBuffer).docid <
        ((Function.update s₁.recs s₁.bt.posInBuffer _) pos).docid
      rw [honly.docid, honly.docid]
      exact hlt

/-- **Putting a record in front of another.** -/
theorem putBefore_spec {fuel r : ℕ} (h : Searching s used pre suf e.1 σ) (hpos : pos ∉ used)
    (htwo : 2 ≤ pos) (hdocid : (s.recs pos).docid = e.1) (hposting : (s.recs pos).posting = e.2)
    (hr : suf.head? = some r) (hu : e.1 ≤ (s.recs r).docid) (hfuel : suf.length < fuel) :
    ∃ s' xs', putBefore fuel s σ pos e.1 r = some s' ∧
      PutDone s.recs used (pre ++ suf) pos e s' xs' := by
  obtain ⟨rest, rfl⟩ : ∃ rest, suf = r :: rest := by
    cases suf with
    | nil => cases hr
    | cons x rest => exact ⟨rest, by rw [Option.some.inj hr]⟩
  have hrmem : r ∈ pre ++ r :: rest := by simp
  have hchain := h.inv.skip.chain.drop
  rw [hchain.1] at hchain
  obtain ⟨dead, post, hsplit, hclear, hdead, hpost⟩ := clear_spec (b := s.recs) (u := e.1)
    (r := r) hchain (List.pairwise_append.1 h.inv.skip.sorted).2.1
    (h.inv.skip.chain.ne_zero hrmem) hu hfuel
  have hposdead : pos ∉ dead := fun hmem =>
    hpos (h.inv.skip.mem_used (by rw [hsplit]; simp [hmem]))
  simp only [putBefore, hclear, Option.bind_eq_bind, Option.bind_some]
  refine ⟨_, pre ++ pos :: post, rfl, ?_⟩
  rw [hsplit, ← List.append_assoc]
  refine putDone_store (by rw [List.append_assoc, ← hsplit]; exact h.inv) h.before h.places hpos
    htwo h.ok hpost hdead (fun i hi => by simp [hi]) (by simpa using hdocid)
    (by simpa using hposting) (by simp) ?_
  -- the jump is that of the record the new one is put in front of
  simp only [Function.update_self]
  split_ifs with hcheck
  · exact .inl rfl
  · refine (h.inv.skip.jump_ahead r (h.inv.skip.mem_used hrmem)
      (h.inv.skip.not_gone hrmem)).imp_right fun ⟨hused, hlt⟩ => ⟨hused, hu.trans_lt hlt⟩

/-- Passing a record may set jumps, and nothing else. -/
theorem leaveJump_spec {r : ℕ} (h : TermInv s.recs s.bt used (pre ++ r :: suf)) (hok : s.ok = true)
    (hstart : σ.rStart ∈ pre ++ [r]) :
    ∃ s' σ', leaveJump s σ r = (s', σ') ∧ JumpsOnly used s.recs s'.recs ∧
      TermInv s'.recs s'.bt used (pre ++ r :: suf) ∧ s'.ok = true ∧ σ'.idPost = σ.idPost ∧
      σ'.rStart ∈ pre ++ [r] := by
  unfold leaveJump
  split_ifs with hhops
  · have hall : pre ++ r :: suf = (pre ++ [r]) ++ suf := by simp
    have hrmem : r ∈ pre ++ r :: suf := by simp
    have hle : (s.recs σ.rStart).docid ≤ (s.recs r).docid := by
      rcases List.mem_append.1 hstart with hmem | hmem
      · exact ((List.pairwise_append.1 h.skip.sorted).2.2 _ hmem r List.mem_cons_self).le
      · rw [List.mem_singleton.1 hmem]
    obtain ⟨b', hrun, honly, hskip⟩ := setJumpR_spec h.skip h.two_le (r := σ.rStart) (j := r)
      (by rw [hall]; exact List.mem_append_left _ hstart)
      (fun _ => ⟨h.skip.mem_used hrmem, .inr hle⟩) maxJump
    refine ⟨{ s with recs := b' }, σ, ?_, honly, ⟨hskip, h.two_le, h.size_eq⟩, hok, rfl, hstart⟩
    simp [hrun]
  · exact ⟨s, _, rfl, .refl _, h, hok, rfl, hstart⟩

theorem countHops_spec {r : ℕ} (h : Searching s used pre (r :: suf) e.1 σ) :
    ∃ s' σ', countHops s σ e.1 r = (s', σ') ∧ JumpsOnly used s.recs s'.recs ∧
      TermInv s'.recs s'.bt used (pre ++ r :: suf) ∧ s'.ok = true ∧ σ'.idPost = σ.idPost ∧
      σ'.rStart ∈ pre ++ [r] := by
  unfold countHops
  dsimp only
  split_ifs with hreset hdelta
  · exact ⟨s, _, rfl, .refl _, h.inv, h.ok, rfl, by simp⟩
  · exact leaveJump_spec h.inv h.ok (by simp)
  · exact leaveJump_spec h.inv h.ok (by simp [h.started (by simpa using hreset)])

/-- **The search goes on** behind the record, or behind the one it jumps to: at least one record
less is left. -/
theorem advance_spec {r : ℕ} (h : TermInv s.recs s.bt used (pre ++ r :: suf)) (hok : s.ok = true)
    (hbefore : ∀ x ∈ pre ++ [r], (s.recs x).docid < e.1) (hpost : σ.idPost = (s.recs r).docid)
    (hstart : σ.rStart ∈ pre ++ [r]) :
    ∃ pre' suf', pre' ++ suf' = pre ++ r :: suf ∧ suf'.length ≤ suf.length ∧
      Searching s used pre' suf' e.1 (advance s.recs σ e.1 r) := by
  have hrmem : r ∈ pre ++ r :: suf := by simp
  have hsorted := List.pairwise_append.1 h.skip.sorted
  have hle : ∀ x ∈ suf, σ.idPost ≤ (s.recs x).docid := fun x hx => by
    rw [hpost]
    exact ((List.pairwise_cons.1 hsorted.2.1).1 x hx).le
  have hassoc : (pre ++ [r]) ++ suf = pre ++ r :: suf := by simp
  unfold advance
  dsimp only
  split_ifs with hnone hdel hlt
  · exact ⟨pre ++ [r], suf, hassoc, le_rfl, by rw [hassoc]; exact h, hok, hbefore,
      .inr ⟨by simp, rfl⟩, hle, fun _ => hstart⟩
  · exact ⟨pre ++ [r], suf, hassoc, le_rfl, by rw [hassoc]; exact h, hok, hbefore,
      .inr ⟨by simp, rfl⟩, hle, fun _ => hstart⟩
  · -- the jump leads to a record of the chain that is still before the new one
    rcases h.skip.jump_ahead r (h.skip.mem_used hrmem) (h.skip.not_gone hrmem) with h0 | ⟨hju, hjlt⟩
    · have h0' : (s.recs r).jump = 0 := h0
      omega
    · have hlive : ¬ (cells s.recs).gone (s.recs r).jump := fun hg =>
        hdel (by simpa [BufferRec.deleted])
      change (s.recs r).jump ∈ used at hju
      obtain ⟨mid, rest, rfl⟩ := h.skip.suffix_of_jump hju hlive hjlt
      have hassoc' : (pre ++ r :: mid ++ [(s.recs r).jump]) ++ rest =
          pre ++ r :: (mid ++ (s.recs r).jump :: rest) := by simp
      have hall : SkipChain (cells s.recs) used s.bt.posInBuffer
          ((pre ++ r :: mid) ++ (s.recs r).jump :: rest) := by simpa using h.skip
      have hlen : rest.length ≤ (mid ++ (s.recs r).jump :: rest).length := by
        rw [List.length_append, List.length_cons]
        omega
      refine ⟨pre ++ r :: mid ++ [(s.recs r).jump], rest, hassoc', hlen,
        by rw [hassoc']; exact h, hok, hall.key_lt_of_prefix hlt,
        .inr ⟨List.getLast?_concat, rfl⟩, fun x hx => hle x (by simp [hx]), fun _ => ?_⟩
      have hsub : pre ++ [r] ⊆ pre ++ r :: mid ++ [(s.recs r).jump] := fun y hy => by
        simp only [List.mem_append, List.mem_cons, List.not_mem_nil, or_false] at hy ⊢
        tauto
      exact hsub hstart
  · exact ⟨pre ++ [r], suf, hassoc, le_rfl, by rw [hassoc]; exact h, hok, hbefore,
      .inr ⟨by simp, rfl⟩, hle, fun h => absurd h (by simp)⟩

/-- **The loop ends** with the record in the chain, after at most as many rounds as records are
left. -/
theorem putLoop_spec {fuel : ℕ} (h : Searching s used pre suf e.1 σ) (hpos : pos ∉ used)
    (htwo : 2 ≤ pos) (hdocid : (s.recs pos).docid = e.1) (hposting : (s.recs pos).posting = e.2)
    (hfuel : suf.length < fuel) :
    ∃ s' xs', putLoop e.1 pos fuel s σ = some s' ∧ PutDone s.recs used (pre ++ suf) pos e s' xs' := by
  induction fuel generalizing s σ pre suf with
  | zero => omega
  | succ fuel ih =>
    have hload := h.load_eq
    cases suf with
    | nil =>
      change s.load σ.lastp = 0 at hload
      rw [putLoop, hload]
      refine ⟨putTail s σ pos, pre ++ [pos], rfl, ?_⟩
      simpa using putTail_spec h hpos htwo hdocid hposting
    | cons r suf =>
      have hrmem : r ∈ pre ++ r :: suf := by simp
      have hr0 : r ≠ 0 := h.inv.skip.chain.ne_zero hrmem
      have hpostle : ¬ (s.recs r).docid < σ.idPost := (h.idPost_le r List.mem_cons_self).not_gt
      change s.load σ.lastp = r at hload
      rw [putLoop, hload]
      dsimp only
      rw [if_neg hr0, if_neg hpostle]
      have h' : Searching s used pre (r :: suf) e.1 { σ with idPost := (s.recs r).docid } :=
        { h with
          idPost_le := fun x hx => by
            rcases List.mem_cons.1 hx with rfl | hx
            · exact le_rfl
            · have hsorted := (List.pairwise_append.1 h.inv.skip.sorted).2.1
              exact ((List.pairwise_cons.1 hsorted).1 x hx).le }
      by_cases hle : e.1 ≤ (s.recs r).docid
      · rw [if_pos hle]
        exact putBefore_spec h' hpos htwo hdocid hposting rfl hle hfuel
      · rw [if_neg hle]
        obtain ⟨s₁, σ₁, hcount, honly, hinv₁, hok₁, hpost₁, hstart₁⟩ := countHops_spec h'
        have hbefore₁ : ∀ x ∈ pre ++ [r], (s₁.recs x).docid < e.1 := fun x hx => by
          rw [honly.docid]
          rcases List.mem_append.1 hx with hx | hx
          · exact h.before x hx
          · rw [List.mem_singleton.1 hx]
            exact not_le.1 hle
        obtain ⟨pre', suf', hsplit, hlen, hnext⟩ := advance_spec hinv₁ hok₁ hbefore₁
          (by rw [hpost₁, honly.docid]) hstart₁
        have hfuel' : suf'.length < fuel := by
          simp only [List.length_cons] at hfuel
          omega
        obtain ⟨s₂, xs', hrun, hdone⟩ := ih hnext ((honly.docid pos).trans hdocid)
          ((honly.posting pos).trans hposting) hfuel'
        refine ⟨s₂, xs', ?_, ?_⟩
        · rw [hcount]
          change (if s₁.ok = true then _ else _) = _
          rw [if_pos hok₁]
          exact hrun
        · rw [← hsplit]
          exact hdone.of_jumpsOnly honly

/-- **`buffer_put` returns**, and the record is in the chain in place of those it shadows. -/
theorem bufferPut_spec (h : TermInv s.recs s.bt used xs) (hok : s.ok = true) (hpos : pos ∉ used)
    (htwo : 2 ≤ pos) (hlen : xs.length ≤ 2 ^ 16) :
    ∃ s' xs', bufferPut s pos e = some s' ∧ PutDone s.recs used xs pos e s' xs' := by
  set b := Function.update s.recs pos { s.recs pos with docid := e.1, posting := e.2 } with hb
  have hsame : ∀ x ∈ used, b x = s.recs x := fun x hx => by
    have hne : x ≠ pos := fun heq => hpos (heq ▸ hx)
    simp [hb, hne]
  have hskip : SkipChain (cells b) used s.bt.posInBuffer xs :=
    h.skip.congr (fun x hx => congrArg BufferRec.docid (hsame x hx))
      (fun x hx => congrArg BufferRec.step (hsame x hx))
      (fun x hx => congrArg BufferRec.jump (hsame x hx))
      fun x hx => by
        change (b x).jump = 1 ↔ (s.recs x).jump = 1
        rw [hsame x hx]
  have hstart : Searching { s with recs := b } used [] xs e.1 .start :=
    ⟨⟨hskip, h.two_le, h.size_eq⟩, hok, by simp, .inl ⟨rfl, rfl⟩,
      fun x _ => Docid.le_def.2 (by simp [Search.start]; omega), by simp [Search.start]⟩
  obtain ⟨s', xs', hrun, hdone⟩ := putLoop_spec (e := e) hstart hpos htwo (by simp [hb])
    (by simp [hb]) (Nat.lt_succ_of_le hlen)
  refine ⟨s', xs', hrun, ⟨hdone.inv, hdone.ok, hdone.docid_pos, hdone.posting_pos,
    fun x hx => ?_, fun x hx => ?_, fun i hi hip => ?_, fun x => ?_⟩⟩
  · rw [hdone.docid x hx]
    exact congrArg BufferRec.docid (hsame x hx)
  · rw [hdone.posting x hx]
    exact congrArg BufferRec.posting (hsame x hx)
  · rw [hdone.outside i hi hip]
    simp [hb, hip]
  · rw [hdone.mem x, List.nil_append]
    refine or_congr_right (and_congr_right fun hx => ?_)
    change ¬ Shadows e.1 (b x).docid ↔ _
    rw [hsame x (h.skip.mem_used hx)]

end Put

end WriteBuffer

end Groonga.Ii
