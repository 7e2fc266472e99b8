import Groonga.Ii.WriteBuffer
import Mathlib

/-!
# The chains of a buffer segment

The terms of a buffer share the room of its segment, and every record of every term lies in it
at a place of its own: `buffer_free` only shrinks until the buffer is flushed. So the records of
a term change with the calls for that term alone, and what `buffer_put` keeps for one call it
keeps for all of them, in whatever order they come.

A chain is compared with the map that the calls describe: the last record of each key, unless a
later record for section 0 took it away.
-/

namespace Groonga.Ii.WriteBuffer

open Groonga.Lib

/-! ## Calls on a segment -/

/-- `buffer`: the fields of its header about the room, its records and its terms. -/
structure Segment where
  nterms : ℕ
  bufferFree : ℕ
  recs : Recs
  terms : ℕ → BufferTerm

/-- `S_SEGMENT`. -/
def sSegment : ℕ := 0x40000

/-- The sizes of `buffer_header` and of `buffer_term`. -/
def headerSize : ℕ := 16

def termSize : ℕ := 16

/-- A new segment is filled with zeros. -/
def Segment.create : Segment where
  nterms := 0
  bufferFree := sSegment - headerSize
  recs := fun _ => ⟨⟨0, 0⟩, ⟨0, 0, []⟩, 0, 0⟩
  terms := fun _ => ⟨0, 0⟩

/-- The position of the record that was given room last. -/
def Segment.recPos (b : Segment) : ℕ := (headerSize + termSize * b.nterms + b.bufferFree) / 4

/-- Why a call ends without a new state. -/
inductive Stop where
  /-- The caller finds no such term or no room, and does not call `buffer_put`: it flushes the
  buffer first. -/
  | notCalled
  | corrupt
  | endless
deriving DecidableEq, Repr

inductive Call where
  /-- `grn_ii_update_one` or `grn_ii_delete_one` for a term of the buffer. -/
  | put (t : ℕ) (u : Updspec) (deletep : Bool)
  /-- `grn_ii_update_one` for a term that `buffer_new` makes at `offset`. -/
  | new (offset : ℕ) (u : Updspec)
  /-- The same for a term with a posting in the array, which becomes the first record. -/
  | newEmbedded (offset : ℕ) (u2 u : Updspec)

/-- `buffer_put` for the term `t`. -/
def Segment.put (b : Segment) (t pos : ℕ) (e : Docid × Posting) : Except Stop Segment :=
  match bufferPut ⟨b.recs, b.terms t, true⟩ pos e with
  | none => .error .endless
  | some s =>
    if s.ok then .ok { b with recs := s.recs, terms := Function.update b.terms t s.bt }
    else .error .corrupt

/-- The room for `size` bytes of records. -/
def Segment.take (b : Segment) (size : ℕ) : Except Stop Segment :=
  if b.bufferFree < size then .error .notCalled
  else .ok { b with bufferFree := b.bufferFree - size }

/-- `buffer_new`: a void term is taken again, or one is added. -/
def Segment.bufferNew (b : Segment) (offset size : ℕ) : Except Stop Segment :=
  if b.bufferFree < size + termSize then .error .notCalled
  else
    let terms := Function.update b.terms offset ⟨0, 0⟩
    if offset < b.nterms then .ok { b with bufferFree := b.bufferFree - size, terms := terms }
    else if offset = b.nterms then
      .ok { b with
        nterms := b.nterms + 1, bufferFree := b.bufferFree - (size + termSize), terms := terms }
    else .error .notCalled

def Segment.call (ii : Layout) (b : Segment) : Call → Except Stop Segment
  | .put t u deletep =>
    if t < b.nterms then do
      let b ← b.take (encodeRecSize ii u deletep)
      b.put t b.recPos (encodeRec ii u deletep)
    else .error .notCalled
  | .new offset u => do
    let b ← b.bufferNew offset (encodeRecSize ii u false)
    b.put offset b.recPos (encodeRec ii u false)
  | .newEmbedded offset u2 u => do
    let size2 := encodeRecSize ii u2 false
    let b ← b.bufferNew offset (encodeRecSize ii u false + size2)
    let pos := b.recPos
    let b ← b.put offset pos (encodeRec ii u2 false)
    b.put offset (pos + size2 / 4) (encodeRec ii u false)

/-- The calls on a segment from its creation on. -/
def Segment.run (ii : Layout) (calls : List Call) : Except Stop Segment :=
  calls.foldlM (Segment.call ii) .create

/-! ## What the calls say -/

/-- The record of each key. -/
abbrev Content := Docid → Option Posting

/-- A record takes the place of its key, and for section 0 it shadows all sections. -/
def Content.put (c : Content) (e : Docid × Posting) : Content := fun d =>
  if d = e.1 then some e.2 else if Shadows e.1 d then none else c d

/-- What the calls say about each term. -/
def Call.apply (ii : Layout) (c : ℕ → Content) : Call → ℕ → Content
  | .put t u deletep => Function.update c t ((c t).put (encodeRec ii u deletep))
  | .new offset u => Function.update c offset (Content.put (fun _ => none) (encodeRec ii u false))
  | .newEmbedded offset u2 u =>
    Function.update c offset
      ((Content.put (fun _ => none) (encodeRec ii u2 false)).put (encodeRec ii u false))

def contents (ii : Layout) (calls : List Call) : ℕ → Content :=
  calls.foldl (Call.apply ii) fun _ _ => none

/-! ## Chains of all the terms -/

/-- The records of the chain `xs` are those of the map. -/
def Holds (b : Recs) (xs : List ℕ) (c : Content) : Prop :=
  ∀ d p, c d = some p ↔ ∃ x ∈ xs, (b x).docid = d ∧ (b x).posting = p

/-- Each term has records of its own, from `top` on, and among them its chain. -/
structure SegmentInv (b : Segment) (top : ℕ) (used : ℕ → Set ℕ) (xs : ℕ → List ℕ)
    (c : ℕ → Content) : Prop where
  term : ∀ t < b.nterms, TermInv b.recs (b.terms t) (used t) (xs t)
  apart : ∀ t < b.nterms, ∀ t' < b.nterms, t ≠ t' → ∀ x ∈ used t, x ∉ used t'
  above : ∀ t < b.nterms, ∀ x ∈ used t, top ≤ x ∧ x < 2 ^ 16
  holds : ∀ t < b.nterms, Holds b.recs (xs t) (c t)

section Steps

variable {b : Segment} {top : ℕ} {used : ℕ → Set ℕ} {xs : ℕ → List ℕ} {c : ℕ → Content}
  {t pos : ℕ} {e : Docid × Posting}

/-- A chain whose records are not touched. -/
theorem TermInv.congr {r r' : Recs} {bt : BufferTerm} {u : Set ℕ} {l : List ℕ}
    (h : TermInv r bt u l) (hsame : ∀ x ∈ u, r' x = r x) : TermInv r' bt u l where
  skip := h.skip.congr (fun x hx => congrArg BufferRec.docid (hsame x hx))
    (fun x hx => congrArg BufferRec.step (hsame x hx))
    (fun x hx => congrArg BufferRec.jump (hsame x hx)) fun x hx => by
      change (r' x).jump = 1 ↔ (r x).jump = 1
      rw [hsame x hx]
  two_le := h.two_le
  size_eq := h.size_eq

/-- Positions have 16 bits, and so a chain is short enough for the loop. -/
theorem SegmentInv.length_le (h : SegmentInv b top used xs c) (ht : t < b.nterms) :
    (xs t).length ≤ 2 ^ 16 := by
  have hskip := (h.term t ht).skip
  have hsub : (xs t).toFinset ⊆ Finset.range (2 ^ 16) := fun x hx => by
    rw [List.mem_toFinset] at hx
    exact Finset.mem_range.2 (h.above t ht x (hskip.mem_used hx)).2
  rw [← List.toFinset_card_of_nodup hskip.nodup]
  exact (Finset.card_le_card hsub).trans_eq (Finset.card_range _)

/-- The map after a record is put follows the chain. -/
theorem PutDone.holds {r : Recs} {u : Set ℕ} {l l' : List ℕ} {s : PutState} {m : Content}
    (h : PutDone r u l pos e s l') (hused : ∀ x ∈ l, x ∈ u) (hm : Holds r l m) (hpos : pos ∉ u) :
    Holds s.recs l' (m.put e) := by
  intro d p
  unfold Content.put
  constructor
  · split_ifs with hd hs
    · intro hp
      exact ⟨pos, (h.mem pos).2 (.inl rfl), by rw [h.docid_pos, hd],
        by rw [h.posting_pos, Option.some.inj hp]⟩
    · intro hp
      cases hp
    · intro hp
      obtain ⟨x, hx, hdx, hpx⟩ := (hm d p).1 hp
      refine ⟨x, (h.mem x).2 (.inr ⟨hx, by rwa [hdx]⟩), ?_, ?_⟩
      · rw [h.docid x (hused x hx), hdx]
      · rw [h.posting x (hused x hx), hpx]
  · rintro ⟨x, hx, hdx, hpx⟩
    rcases (h.mem x).1 hx with rfl | ⟨hxl, hs⟩
    · rw [if_pos (by rw [← hdx, h.docid_pos]), ← hpx, h.posting_pos]
    · rw [h.docid x (hused x hxl)] at hdx
      rw [h.posting x (hused x hxl)] at hpx
      rw [hdx] at hs
      rw [if_neg fun heq => hs (.inl heq), if_neg hs]
      exact (hm d p).2 ⟨x, hxl, hdx, hpx⟩

/-- **A call of `buffer_put`** at a position that is not in use. -/
theorem SegmentInv.put (h : SegmentInv b top used xs c) (ht : t < b.nterms)
    (hpos : ∀ t' < b.nterms, pos ∉ used t') (htop : top ≤ pos) (htwo : 2 ≤ pos)
    (hlt : pos < 2 ^ 16) :
    ∃ b' l, b.put t pos e = .ok b' ∧ b'.nterms = b.nterms ∧ b'.bufferFree = b.bufferFree ∧
      SegmentInv b' top (Function.update used t (insert pos (used t))) (Function.update xs t l)
        (Function.update c t ((c t).put e)) := by
  obtain ⟨s, l, hrun, hdone⟩ := bufferPut_spec (s := ⟨b.recs, b.terms t, true⟩) (e := e)
    (h.term t ht) rfl (hpos t ht) htwo (h.length_le ht)
  refine ⟨{ b with recs := s.recs, terms := Function.update b.terms t s.bt }, l, ?_, rfl, rfl,
    ?_⟩
  · simp [Segment.put, hrun, hdone.ok]
  · have hother : ∀ t' < b.nterms, t' ≠ t → ∀ x ∈ used t', s.recs x = b.recs x := by
      intro t' ht' hne x hx
      exact hdone.outside x (h.apart t' ht' t ht hne x hx) fun heq => hpos t' ht' (heq ▸ hx)
    refine ⟨fun t' ht' => ?_, fun t₁ h₁ t₂ h₂ hne x hx => ?_, fun t' ht' x hx => ?_,
      fun t' ht' => ?_⟩
    · by_cases heq : t' = t
      · subst heq
        simpa using hdone.inv
      · simpa [heq] using (h.term t' ht').congr (hother t' ht' heq)
    · by_cases he₁ : t₁ = t <;> by_cases he₂ : t₂ = t
      · exact absurd (he₁.trans he₂.symm) hne
      · subst he₁
        simp only [Function.update_self, Set.mem_insert_iff, Function.update_of_ne he₂] at hx ⊢
        rcases hx with rfl | hx
        · exact hpos t₂ h₂
        · exact h.apart t₁ h₁ t₂ h₂ hne x hx
      · subst he₂
        simp only [Function.update_self, Set.mem_insert_iff, Function.update_of_ne he₁] at hx ⊢
        rintro (rfl | hx')
        · exact hpos t₁ h₁ hx
        · exact h.apart t₁ h₁ t₂ h₂ hne x hx hx'
      · simp only [Function.update_of_ne he₁, Function.update_of_ne he₂] at hx ⊢
        exact h.apart t₁ h₁ t₂ h₂ hne x hx
    · by_cases heq : t' = t
      · subst heq
        simp only [Function.update_self, Set.mem_insert_iff] at hx
        rcases hx with rfl | hx
        · exact ⟨htop, hlt⟩
        · exact h.above t' ht' x hx
      · rw [Function.update_of_ne heq] at hx
        exact h.above t' ht' x hx
    · by_cases heq : t' = t
      · subst heq
        simp only [Function.update_self]
        exact hdone.holds (fun x hx => (h.term t' ht').skip.mem_used hx) (h.holds t' ht')
          (hpos t' ht')
      · simp only [Function.update_of_ne heq]
        intro d p
        rw [h.holds t' ht' d p]
        refine exists_congr fun x => and_congr_right fun hx => ?_
        rw [hother t' ht' heq x ((h.term t' ht').skip.mem_used hx)]

/-- More room in front of the records. -/
theorem SegmentInv.lower {b' : Segment} {top' : ℕ} (h : SegmentInv b top used xs c)
    (hle : top' ≤ top) (hn : b'.nterms = b.nterms) (hrecs : b'.recs = b.recs)
    (hterms : b'.terms = b.terms) : SegmentInv b' top' used xs c where
  term := by rw [hn, hrecs, hterms]; exact h.term
  apart := by rw [hn]; exact h.apart
  above t ht x hx := by
    rw [hn] at ht
    exact ⟨hle.trans (h.above t ht x hx).1, (h.above t ht x hx).2⟩
  holds := by rw [hn, hrecs]; exact h.holds

/-- A term without records. -/
theorem SegmentInv.newTerm {b' : Segment} {top' offset : ℕ} (h : SegmentInv b top used xs c)
    (hle : top' ≤ top) (hn : ∀ t < b'.nterms, t ≠ offset → t < b.nterms)
    (hrecs : b'.recs = b.recs) (hterms : b'.terms = Function.update b.terms offset ⟨0, 0⟩) :
    SegmentInv b' top' (Function.update used offset ∅) (Function.update xs offset [])
      (Function.update c offset fun _ => none) where
  term t ht := by
    rw [hrecs, hterms]
    by_cases heq : t = offset
    · subst heq
      simp only [Function.update_self]
      exact ⟨.nil _, by simp, fun _ => rfl⟩
    · simp only [Function.update_of_ne heq]
      exact h.term t (hn t ht heq)
  apart t₁ h₁ t₂ h₂ hne x hx := by
    by_cases he₁ : t₁ = offset
    · subst he₁
      simp at hx
    · by_cases he₂ : t₂ = offset
      · subst he₂
        simp
      · rw [Function.update_of_ne he₁] at hx
        rw [Function.update_of_ne he₂]
        exact h.apart t₁ (hn t₁ h₁ he₁) t₂ (hn t₂ h₂ he₂) hne x hx
  above t ht x hx := by
    by_cases heq : t = offset
    · subst heq
      simp at hx
    · rw [Function.update_of_ne heq] at hx
      obtain ⟨hge, hlt⟩ := h.above t (hn t ht heq) x hx
      exact ⟨hle.trans hge, hlt⟩
  holds t ht := by
    by_cases heq : t = offset
    · subst heq
      intro d p
      simp
    · rw [hrecs]
      simp only [Function.update_of_ne heq]
      exact h.holds t (hn t ht heq)

end Steps

/-! ## Runs -/

/-- The records lie behind the terms, in the segment. -/
def RunInv (b : Segment) (c : ℕ → Content) : Prop :=
  headerSize + termSize * b.nterms + b.bufferFree ≤ sSegment ∧
    ∃ used xs, SegmentInv b b.recPos used xs c

section Runs

variable {ii : Layout} {b : Segment} {c : ℕ → Content} {u : Updspec} {deletep : Bool}

theorem four_le_encodeRecSize : 4 ≤ encodeRecSize ii u deletep := by
  unfold encodeRecSize
  dsimp only
  omega

theorem runInv_create : RunInv .create fun _ _ => none := by
  refine ⟨by decide, fun _ => ∅, fun _ => [], ⟨?_, ?_, ?_, ?_⟩⟩
  all_goals intro t ht
  all_goals exact absurd ht (by simp [Segment.create])

/-- A record is put at a position that is in front of all others, or was given room with
one that is. -/
theorem SegmentInv.putAt {used : ℕ → Set ℕ} {xs : ℕ → List ℕ} {t p : ℕ}
    {e : Docid × Posting} (h : SegmentInv b b.recPos used xs c) (ht : t < b.nterms)
    (hpos : ∀ t' < b.nterms, p ∉ used t') (hge : b.recPos ≤ p) (hlt : p < 2 ^ 16) :
    ∃ b' l, b.put t p e = .ok b' ∧ b'.nterms = b.nterms ∧ b'.bufferFree = b.bufferFree ∧
      SegmentInv b' b'.recPos (Function.update used t (insert p (used t)))
        (Function.update xs t l) (Function.update c t ((c t).put e)) := by
  have htwo : 2 ≤ p := by
    unfold Segment.recPos headerSize at hge
    omega
  obtain ⟨b', l, hrun, hn, hfree, hinv⟩ := h.put ht hpos hge htwo hlt
  refine ⟨b', l, hrun, hn, hfree, ?_⟩
  have hsame : b'.recPos = b.recPos := by unfold Segment.recPos; rw [hn, hfree]
  rw [hsame]
  exact hinv

/-- The terms and the records after `buffer_new`, whose room is in front of all records. -/
theorem RunInv.bufferNew {offset size : ℕ} (h : RunInv b c) (hsize : 4 ≤ size) :
    b.bufferNew offset size = .error .notCalled ∨
      ∃ b' used xs, b.bufferNew offset size = .ok b' ∧ offset < b'.nterms ∧
        headerSize + termSize * b'.nterms + b'.bufferFree + size ≤ sSegment ∧
        SegmentInv b' b'.recPos used xs (Function.update c offset fun _ => none) ∧
        ∀ t < b'.nterms, ∀ x ∈ used t,
          headerSize + termSize * b'.nterms + b'.bufferFree + size < 4 * (x + 1) := by
  obtain ⟨hbound, used, xs, hinv⟩ := h
  unfold Segment.bufferNew
  have hroom : ∀ {n free : ℕ}, termSize * n + free + size = termSize * b.nterms + b.bufferFree →
      (headerSize + termSize * n + free) / 4 ≤ b.recPos := fun {n free} heq => by
    unfold Segment.recPos
    omega
  have hfront : ∀ {n free : ℕ}, termSize * n + free + size = termSize * b.nterms + b.bufferFree →
      (∀ t < n, t ≠ offset → t < b.nterms) → ∀ t < n, ∀ x ∈ Function.update used offset ∅ t,
        headerSize + termSize * n + free + size < 4 * (x + 1) := by
    intro n free heq hn t ht x hx
    by_cases hto : t = offset
    · subst hto
      simp at hx
    · rw [Function.update_of_ne hto] at hx
      have hge := (hinv.above t (hn t ht hto) x hx).1
      unfold Segment.recPos at hge
      omega
  split_ifs with hno hold hnew
  · exact .inl rfl
  · have heq : termSize * b.nterms + (b.bufferFree - size) + size =
        termSize * b.nterms + b.bufferFree := by unfold termSize at hno ⊢; omega
    refine .inr ⟨_, _, _, rfl, hold, ?_, hinv.newTerm ?_ ?_ rfl rfl, ?_⟩
    · dsimp only
      omega
    · exact hroom heq
    · exact fun t ht _ => ht
    · exact hfront heq fun t ht _ => ht
  · have heq : termSize * (b.nterms + 1) + (b.bufferFree - (size + termSize)) + size =
        termSize * b.nterms + b.bufferFree := by unfold termSize at hno ⊢; omega
    have hlt : ∀ t < b.nterms + 1, t ≠ offset → t < b.nterms := fun t ht hne => by omega
    refine .inr ⟨_, _, _, rfl, ?_, ?_, hinv.newTerm ?_ ?_ rfl rfl, ?_⟩
    · dsimp only
      omega
    · dsimp only
      omega
    · exact hroom heq
    · exact hlt
    · exact hfront heq hlt
  · exact .inl rfl

/-- **One call** ends, unless it is not made, and the chains follow what it says. -/
theorem RunInv.call (h : RunInv b c) (call : Call) :
    b.call ii call = .error .notCalled ∨
      ∃ b', b.call ii call = .ok b' ∧ RunInv b' (call.apply ii c) := by
  cases call with
  | put t u deletep =>
    have hfour := @four_le_encodeRecSize ii u deletep
    unfold Segment.call Segment.take
    dsimp only
    generalize encodeRecSize ii u deletep = size at hfour ⊢
    split_ifs with ht hno
    · exact .inl rfl
    · obtain ⟨hbound, used, xs, hinv⟩ := h
      set b₁ : Segment := { b with bufferFree := b.bufferFree - size } with hb₁
      have hlt : b₁.recPos < b.recPos ∧ b₁.recPos < 2 ^ 16 := by
        simp only [hb₁, Segment.recPos, headerSize, termSize, sSegment] at hbound ⊢
        omega
      have hlow : SegmentInv b₁ b₁.recPos used xs c := hinv.lower hlt.1.le rfl rfl rfl
      obtain ⟨b', l, hrun, hn, hfree, hinv'⟩ := hlow.putAt (e := encodeRec ii u deletep) ht
        (fun t' ht' hmem => absurd (hinv.above t' ht' _ hmem).1 (by omega)) le_rfl hlt.2
      refine .inr ⟨b', hrun, ?_, _, _, hinv'⟩
      rw [hn, hfree, hb₁]
      dsimp only
      omega
    · exact .inl rfl
  | new offset u =>
    have hfour := @four_le_encodeRecSize ii u false
    unfold Segment.call
    dsimp only
    generalize encodeRecSize ii u false = size at hfour ⊢
    rcases @RunInv.bufferNew _ _ offset _ h hfour with hno |
      ⟨b₁, used, xs, hnew, ht, hbound, hinv, hfront⟩
    · rw [hno]
      exact .inl rfl
    · rw [hnew]
      have hlt : b₁.recPos < 2 ^ 16 := by
        simp only [Segment.recPos, headerSize, termSize, sSegment] at hbound ⊢
        omega
      obtain ⟨b', l, hrun, hn, hfree, hinv'⟩ := hinv.putAt (e := encodeRec ii u false) ht
        (fun t' ht' hmem => absurd (hfront t' ht' _ hmem) (by unfold Segment.recPos; omega)) le_rfl
        hlt
      simp only [Function.update_self, Function.update_idem] at hinv'
      refine .inr ⟨b', hrun, ?_, _, _, hinv'⟩
      rw [hn, hfree]
      omega
  | newEmbedded offset u2 u =>
    have hfour := @four_le_encodeRecSize ii u false
    have hfour2 := @four_le_encodeRecSize ii u2 false
    unfold Segment.call
    dsimp only
    generalize encodeRecSize ii u false = size at hfour ⊢
    generalize encodeRecSize ii u2 false = size2 at hfour2 ⊢
    rcases @RunInv.bufferNew _ _ offset (size + size2) h (by omega) with hno |
      ⟨b₁, used, xs, hnew, ht, hbound, hinv, hfront⟩
    · rw [hno]
      exact .inl rfl
    · rw [hnew]
      have hlt : b₁.recPos + size2 / 4 < 2 ^ 16 := by
        simp only [Segment.recPos, headerSize, termSize, sSegment] at hbound ⊢
        omega
      obtain ⟨b₂, l, hrun, hn, hfree, hinv₂⟩ := hinv.putAt (e := encodeRec ii u2 false) ht
        (fun t' ht' hmem => absurd (hfront t' ht' _ hmem) (by unfold Segment.recPos; omega)) le_rfl
        (by omega)
      have hsame : b₂.recPos = b₁.recPos := by unfold Segment.recPos; rw [hn, hfree]
      obtain ⟨b₃, l', hrun', hn', hfree', hinv₃⟩ := hinv₂.putAt (e := encodeRec ii u false)
        (p := b₁.recPos + size2 / 4) (by rwa [hn]) (fun t' ht' hmem => by
          rw [hn] at ht'
          by_cases hto : t' = offset
          · subst hto
            simp only [Function.update_self, Set.mem_insert_iff] at hmem
            rcases hmem with heq | hmem
            · omega
            · refine absurd (hfront t' ht' _ hmem) ?_
              unfold Segment.recPos
              omega
          · rw [Function.update_of_ne hto] at hmem
            refine absurd (hfront t' ht' _ hmem) ?_
            unfold Segment.recPos
            omega) (by omega) hlt
      simp only [Function.update_self, Function.update_idem] at hinv₃
      refine .inr ⟨b₃, ?_, ?_, _, _, hinv₃⟩
      · change (b₁.put offset b₁.recPos _ >>= _) = _
        rw [hrun]
        exact hrun'
      · rw [hn', hfree', hn, hfree]
        omega

/-- **A run** ends in a call that is not made, or its chains follow what the calls say. -/
theorem run_inv (calls : List Call) :
    match Segment.run ii calls with
    | .ok b => RunInv b (contents ii calls)
    | .error stop => stop = .notCalled := by
  unfold Segment.run contents
  induction calls using List.reverseRecOn with
  | nil => exact runInv_create
  | append_singleton calls call ih =>
    rw [List.foldlM_append, List.foldl_append]
    cases hrun : calls.foldlM (Segment.call ii) Segment.create with
    | error stop =>
      rw [hrun] at ih
      exact ih
    | ok b =>
      rw [hrun] at ih
      rcases @RunInv.call ii _ _ ih call with hno | ⟨b', hcall, hinv⟩
      · change match (b.call ii call >>= fun s => pure s) with
          | .ok b => _
          | .error stop => _
        rw [hno]
        rfl
      · change match (b.call ii call >>= fun s => pure s) with
          | .ok b => _
          | .error stop => _
        rw [hcall]
        exact hinv

end Runs

/-! ## Reading a chain -/

/-- Where `grn_ii_cursor_next_internal` goes on from a record below `min`. -/
def nextBelow (b : Recs) (min r : ℕ) : ℕ :=
  if 0 < (b r).jump ∧ (b r).deleted = false then
    if (b (b r).jump).deleted then (b r).step
    else if (b (b r).jump).docid.rid < min then (b r).jump
    else (b r).step
  else (b r).step

/-- The cursor's way to its first record with an id from `min` on, 0 if there is none. -/
def seek (b : Recs) (min : ℕ) : ℕ → ℕ → Option ℕ
  | 0, _ => none
  | fuel + 1, r =>
    if r = 0 then some 0
    else if (b r).docid.rid < min then seek b min fuel (nextBelow b min r)
    else some r

section Reading

variable {b : Recs} {used : Set ℕ} {start min r fuel : ℕ} {xs pre suf : List ℕ}

theorem lt_min_iff {d : Docid} : d < ⟨min, 0⟩ ↔ d.rid < min := by
  rw [Docid.lt_def]
  dsimp only
  omega

/-- The cursor uses the links as any search does. -/
theorem nextBelow_move (hr : r ≠ 0) (hlt : (b r).docid.rid < min) :
    SkipChain.Move (cells b) ⟨min, 0⟩ r (nextBelow b min r) := by
  have hkey : (cells b).key r < ⟨min, 0⟩ := lt_min_iff.2 hlt
  have hstep : SkipChain.Move (cells b) ⟨min, 0⟩ r (b r).step := .step hr hkey
  unfold nextBelow
  split_ifs with hjump hdel hbelow
  · exact hstep
  · refine .jump hr hkey ?_ (fun hg => hdel ?_) (lt_min_iff.2 hbelow)
    · have hpos : (b r).jump ≠ 0 := by omega
      exact hpos
    · have hg' : (b (b r).jump).jump = 1 := hg
      simpa [BufferRec.deleted] using hg'
  · exact hstep
  · exact hstep

/-- **The cursor finds the first record from `min` on** that is ahead of it, whatever jumps
there are. -/
theorem seek_eq (h : SkipChain (cells b) used start (pre ++ suf))
    (hchain : Chain (fun i => (b i).step) r suf) (hfuel : suf.length < fuel) :
    seek b min fuel r =
      some ((suf.dropWhile fun x => (b x).docid.rid < min).head?.getD 0) := by
  induction fuel generalizing r pre suf with
  | zero => omega
  | succ fuel ih =>
    rw [seek]
    cases suf with
    | nil =>
      rw [if_pos (show r = 0 from hchain)]
      rfl
    | cons x suf =>
      obtain ⟨rfl, hne, hrest⟩ := hchain
      rw [if_neg hne]
      split_ifs with hlt
      · obtain ⟨mid, suf', hsplit, hmid, hbelow, hchain'⟩ :=
          (nextBelow_move hne hlt).ahead h ⟨rfl, hne, hrest⟩
        have hlen := List.length_pos_iff.2 hmid
        have hshort : suf'.length < fuel := by
          have := congrArg List.length hsplit
          simp only [List.length_append, List.length_cons] at this hfuel
          omega
        rw [hsplit] at h ⊢
        have hbelow' : ∀ y ∈ mid, decide ((b y).docid.rid < min) = true := fun y hy =>
          decide_eq_true (lt_min_iff.1 (hbelow y hy))
        rw [List.dropWhile_append_of_pos hbelow']
        rw [← List.append_assoc] at h
        exact ih h hchain' hshort
      · rw [List.dropWhile_cons_of_neg (by simpa using hlt)]
        rfl

end Reading

/-! ## The chains of every run -/

end Groonga.Ii.WriteBuffer
