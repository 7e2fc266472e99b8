import Groonga.Ii.MergedStream

/-!
# Skipping

Between two calls of `next` the lower bound of a cursor may be raised. Who raises it does not want
the postings below it, and shall not see a difference above it: `Transparent` compares the calls
with the postings that a cursor returns whose bound stays as it was.

A posting below the bound may still come, for it was at hand already.
-/

namespace Groonga.Ii

open Groonga.Lib
open StoredCursor (atLeast)

namespace Cursor

variable (ii : Layout)

/-! ## Calls -/

/-- The frequency of the posting that a cursor stands at. -/
def tf : Cursor → ℕ
  | .sole _ _ _ _ _ _ => 1
  | .stored c => (c.posting.map Internal.tf).getD 0

def weight : Cursor → ℕ
  | .sole _ _ _ _ _ _ => 0
  | .stored c => (c.posting.map Internal.weight).getD 0

/-- Up to `k` positions of the posting are read. -/
def readPos : ℕ → Cursor → List ℕ × Cursor
  | 0, c => ([], c)
  | k + 1, c =>
    match nextPos ii c with
    | none => ([], c)
    | some c => (c.pos :: (readPos k c).1, (readPos k c).2)

/-- What is seen of the posting at which a cursor stands. -/
def seen (k : ℕ) (c : Cursor) : Hit := ⟨c.docid, c.tf, c.weight, (readPos ii k c).1⟩

/-- A call: `grn_ii_cursor_set_min`, or `grn_ii_cursor_next` with calls of
`grn_ii_cursor_next_pos` after it. -/
inductive Call where
  | setMin (min : ℕ)
  | next (k : ℕ)

/-- What is seen of the postings, to the first `next` that returns none. -/
def runCalls : Cursor → List Call → Option (List (Option Hit))
  | _, [] => some []
  | c, .setMin min :: calls => runCalls (c.setMin min) calls
  | c, .next k :: calls => do
    match ← next ii c with
    | none => return [none]
    | some c => return some (c.seen ii k) :: (← runCalls (c.readPos ii k).2 calls)

/-- All the postings of a cursor whose bound is not raised, each with up to `k` positions. -/
def postings (k : ℕ) : ℕ → Cursor → Option (List Hit)
  | 0, _ => none
  | fuel + 1, c => do
    match ← next ii c with
    | none => return []
    | some c => return c.seen ii k :: (← postings k fuel (c.readPos ii k).2)

def nexts : List Call → ℕ
  | [] => 0
  | .setMin _ :: calls => nexts calls
  | .next _ :: calls => nexts calls + 1

/-- **Nothing from the bound on is lost, shifted or added.** The cursor without a raised bound
still returns `rest`. -/
def Transparent : ℕ → List Hit → List Call → List (Option Hit) → Prop
  | _, _, [], rs => rs = []
  | bound, rest, .setMin min :: calls, rs => Transparent (max bound min) rest calls rs
  | bound, rest, .next k :: calls, rs =>
    (atLeast bound rest = [] ∧ rs = [none]) ∨
    (∃ h rest' rs', atLeast bound rest = h :: rest' ∧
      rs = some { h with pos := h.pos.take k } :: rs' ∧ Transparent bound rest' calls rs') ∨
    (∃ x rs', x.docid.rid < bound ∧ rs = some x :: rs' ∧ Transparent bound rest calls rs')

/-! ## What is left -/

section

variable {ii} {c : Cursor} {a : Ahead} {hs rest : List Hit} {n k bound : ℕ}

theorem Stands.seen {skips : Prop} (h : Stands ii skips c a) :
    c.tf = a.tf ∧ c.weight = a.weight := by
  obtain ⟨hat, -⟩ := h
  cases c with
  | sole rid sid pos min docUsed posUsed =>
    obtain ⟨-, rfl⟩ := hat
    exact ⟨rfl, rfl⟩
  | stored c =>
    obtain ⟨suf, x, hs, rfl⟩ := hat
    simp only [tf, weight, StoredCursor.posting, hs.post, Option.map_some, Option.getD_some]
    cases x <;> exact ⟨rfl, rfl⟩

/-- Reading positions. -/
theorem Stands.readPos {skips : Prop} (h : Stands ii skips c a) (k : ℕ) :
    (c.readPos ii k).1 = a.unread.take k ∧
      Stands ii skips (c.readPos ii k).2 { a with unread := a.unread.drop k } := by
  induction k generalizing c a with
  | zero => exact ⟨rfl, h⟩
  | succ k ih =>
    rw [Cursor.readPos]
    rcases h.nextPos with ⟨hnil, hrun⟩ | ⟨c', p, ps, hunread, hrun, hpos, h'⟩
    · rw [hrun, hnil]
      refine ⟨rfl, ?_⟩
      rw [List.drop_nil, ← hnil]
      exact h
    · obtain ⟨htake, hdrop⟩ := ih h'
      rw [hrun, hunread]
      exact ⟨by rw [List.take_succ_cons, ← hpos, ← htake], hdrop⟩

/-- What a cursor still returns, between two calls. -/
def Left (ii : Layout) : Cursor → List Hit → ℕ → Prop
  | .sole rid sid pos min docUsed posUsed, hs, n =>
    (docUsed = false → posUsed = false) ∧
      hs = (if docUsed then [] else atLeast min [soleHit rid sid pos]) ∧
      n = if docUsed then 0 else 1
  | .stored c, hs, n => ∃ suf, c.Inv ii True suf ∧ c.Settled True ∧
    (c.chunkUsed = true ∨ c.bufferUsed = true) ∧ hs = c.view ii suf ∧ n = c.size ii suf

/-- Where a cursor stands the further postings are left. -/
theorem Stands.left (h : Stands ii True c a) : Left ii c a.hits a.size := by
  obtain ⟨hat, -⟩ := h
  cases c with
  | sole rid sid pos min docUsed posUsed =>
    obtain ⟨rfl, rfl⟩ := hat
    exact ⟨nofun, rfl, rfl⟩
  | stored c =>
    obtain ⟨suf, x, hs, rfl⟩ := hat
    exact ⟨suf, hs.inv, hs.settled, StoredCursor.or_of_usedUp hs.used, rfl, rfl⟩

/-- `next` gives the first of what is left. -/
theorem Left.gives (h : Left ii c hs n) : Gives ii True (next ii c) hs n := by
  cases c with
  | sole rid sid pos min docUsed posUsed =>
    obtain ⟨hpos, rfl, rfl⟩ := h
    cases docUsed with
    | true => exact .inl ⟨rfl, rfl⟩
    | false =>
      rw [hpos rfl]
      exact gives_sole rid sid pos min
  | stored c =>
    obtain ⟨suf, hinv, -, hused, rfl, rfl⟩ := h
    exact gives_stored hinv hused

/-- **Raising the bound** leaves the postings from it on. -/
theorem Left.setMin (h : Left ii c hs n) (min : ℕ) :
    ∃ hs' n', Left ii (c.setMin min) hs' n' ∧ n' ≤ n ∧ atLeast min hs' = atLeast min hs := by
  cases c with
  | sole rid sid pos m docUsed posUsed =>
    obtain ⟨hpos, rfl, rfl⟩ := h
    refine ⟨_, _, ⟨hpos, rfl, rfl⟩, le_rfl, ?_⟩
    cases docUsed with
    | true => rfl
    | false =>
      simp only [Bool.false_eq_true, if_false]
      split_ifs with hle
      · rfl
      · rw [StoredCursor.atLeast_atLeast le_rfl, StoredCursor.atLeast_atLeast (not_le.1 hle).le]
  | stored c =>
    obtain ⟨suf, hinv, hset, hused, rfl, rfl⟩ := h
    have hskip := hinv.setMin trivial hset min
    exact ⟨_, _, ⟨suf, hskip.inv, hskip.settled, hskip.oneUsed hused, rfl, rfl⟩, hskip.size_le,
      hskip.filter⟩

/-- A cursor that was opened without a bound. -/
theorem open_left {t : Term} (h : t.Holds ii hs) (hsafe : t.SkipSafe) :
    ∃ n, Left ii (open' 0 t) hs n := by
  cases t with
  | sole rid sid pos =>
    cases h
    exact ⟨1, fun _ => rfl, (StoredCursor.atLeast_of_forall fun _ _ => Nat.zero_le _).symm, rfl⟩
  | stored s =>
    obtain ⟨hwf, used, xs, hchained, rfl⟩ := h
    obtain ⟨hinv, hview⟩ :=
      @StoredCursor.open_spec ii True _ 0 _ _ hwf (fun _ => hsafe) (.inl trivial) hchained
    refine ⟨_, xs, hinv, fun _ hrid => ?_, .inl rfl, ?_, rfl⟩
    · -- without a bound no chunk is passed
      obtain ⟨done, rest, -, hopen, hlt⟩ :=
        @StoredCursor.openChunks_spec 0 s.chunks [] (0, 0) ⟨[], [], rfl, rfl, by simp⟩
      have hdone : done = [] := by
        by_contra hne
        exact Nat.not_lt_zero _ (hlt hne)
      subst hdone
      have hopen' : StoredCursor.openChunks 0 s.chunks 0 0 (0, 0) = (0, 0) := hopen
      refine absurd ?_ hrid
      rw [StoredCursor.open', hopen']
    · rw [hview, StoredCursor.atLeast_of_forall fun _ _ => Nat.zero_le _]

/-! ## Runs -/

/-- One `next` of a run, when the calls behind it are transparent. -/
theorem Gives.runCalls {calls : List Call} (h : Gives ii True (next ii c) hs n)
    (hrest : atLeast bound hs = atLeast bound rest)
    (ih : ∀ c' hs' n' rest', Left ii c' hs' n' → atLeast bound hs' = atLeast bound rest' →
      ∃ rs, runCalls ii c' calls = some rs ∧ Transparent bound rest' calls rs ∧
        (n' < nexts calls → rs.getLast? = some none)) :
    ∃ rs, Cursor.runCalls ii c (.next k :: calls) = some rs ∧
      Transparent bound rest (.next k :: calls) rs ∧
      (n < nexts (.next k :: calls) → rs.getLast? = some none) := by
  rcases h with ⟨rfl, hrun⟩ | ⟨c', h, hs', size, rfl, hrun, -, hstands, hsize⟩
  · refine ⟨[none], ?_, .inl ⟨hrest.symm, rfl⟩, fun _ => rfl⟩
    rw [Cursor.runCalls, hrun]
    rfl
  · obtain ⟨htake, hstands'⟩ := hstands.readPos k
    obtain ⟨htf, hweight⟩ := hstands.seen
    have hseen : c'.seen ii k = { h with pos := h.pos.take k } := by
      rw [Cursor.seen, htake, htf, hweight, hstands.docid_eq]
    have hlast : ∀ (x : Option Hit) (rs : List (Option Hit)),
        (size < nexts calls → rs.getLast? = some none) → n < nexts (.next k :: calls) →
        (x :: rs).getLast? = some none := by
      intro x rs hrs hn
      rw [nexts] at hn
      have := hrs (by omega)
      cases rs with
      | nil => cases this
      | cons y rs => rw [List.getLast?_cons_cons, this]
    by_cases hle : bound ≤ h.docid.rid
    · -- the first posting that is due
      have hdue : atLeast bound rest = h :: atLeast bound hs' := by
        rw [← hrest]
        exact List.filter_cons_of_pos (decide_eq_true hle)
      obtain ⟨rs, hrun', htrans, hend⟩ := ih _ _ _ (atLeast bound hs') hstands'.left
        (StoredCursor.atLeast_atLeast le_rfl hs').symm
      refine ⟨some (c'.seen ii k) :: rs, ?_, .inr (.inl ⟨h, _, rs, hdue, by rw [hseen], htrans⟩),
        hlast _ rs hend⟩
      rw [Cursor.runCalls, hrun]
      simp [hrun']
    · -- one that was at hand already
      have hskip : atLeast bound hs' = atLeast bound rest := by
        rw [← hrest]
        exact (List.filter_cons_of_neg (by simpa using hle)).symm
      obtain ⟨rs, hrun', htrans, hend⟩ := ih _ _ _ rest hstands'.left hskip
      refine ⟨some (c'.seen ii k) :: rs, ?_,
        .inr (.inr ⟨c'.seen ii k, rs, ?_, rfl, htrans⟩), hlast _ rs hend⟩
      · rw [Cursor.runCalls, hrun]
        simp [hrun']
      · rw [hseen]
        exact not_le.1 hle

/-- **Every run is transparent.** -/
theorem Left.runCalls {calls : List Call} (h : Left ii c hs n)
    (hrest : atLeast bound hs = atLeast bound rest) :
    ∃ rs, Cursor.runCalls ii c calls = some rs ∧ Transparent bound rest calls rs ∧
      (n < nexts calls → rs.getLast? = some none) := by
  induction calls generalizing c hs n bound rest with
  | nil => exact ⟨[], rfl, rfl, fun h0 => absurd h0 (Nat.not_lt_zero _)⟩
  | cons call calls ih =>
    cases call with
    | setMin min =>
      obtain ⟨hs', n', hleft, hle, hsame⟩ := h.setMin min
      have hrest' : atLeast (max bound min) hs' = atLeast (max bound min) rest := by
        rw [← StoredCursor.atLeast_atLeast (le_max_right bound min), hsame,
          StoredCursor.atLeast_atLeast (le_max_right bound min),
          ← StoredCursor.atLeast_atLeast (le_max_left bound min), hrest,
          StoredCursor.atLeast_atLeast (le_max_left bound min)]
      obtain ⟨rs, hrun, htrans, hend⟩ := ih hleft hrest'
      exact ⟨rs, hrun, htrans, fun hn => hend (hle.trans_lt hn)⟩
    | next k => exact h.gives.runCalls hrest fun c' hs' n' rest' hleft hrest' => ih hleft hrest'

/-- The postings without a raised bound. -/
theorem Gives.postings {fuel : ℕ} (h : Gives ii True (next ii c) hs n) (hfuel : hs.length < fuel)
    (hk : ∀ x ∈ hs, x.pos.length ≤ k) : postings ii k fuel c = some hs := by
  induction fuel generalizing c hs n with
  | zero => omega
  | succ fuel ih =>
    rw [Cursor.postings]
    rcases h with ⟨rfl, hrun⟩ | ⟨c', h, hs', size, rfl, hrun, -, hstands, -⟩
    · rw [hrun]
      rfl
    · obtain ⟨htake, hstands'⟩ := hstands.readPos k
      obtain ⟨htf, hweight⟩ := hstands.seen
      have hseen : c'.seen ii k = h := by
        rw [Cursor.seen, htake, htf, hweight, hstands.docid_eq,
          List.take_of_length_le (hk h List.mem_cons_self)]
      have hrest := ih hstands'.left.gives (by simpa using hfuel)
        fun x hx => hk x (List.mem_cons_of_mem _ hx)
      rw [hrun]
      simp [hseen, hrest]

end

/-! ## A clipped chunk -/

open CursorHeap (splitTerm splitTerm_holds)

theorem splitTerm_skipSafe : (Term.stored splitTerm).SkipSafe :=
  ⟨by simp [splitTerm], by simp [splitTerm]⟩

/-- A term of three chunks. The last record of the first one, 20, was deleted since the table was
written, and so it seems that the third one ends at 25. -/
def clippedTerm : Stored where
  chunks :=
    [⟨20, [⟨5, 0, 0, 0, [7]⟩]⟩, ⟨10, [⟨25, 0, 0, 0, [7]⟩, ⟨5, 0, 0, 0, [7]⟩]⟩,
      ⟨10, [⟨35, 0, 0, 0, [7]⟩, ⟨5, 0, 0, 0, [7]⟩]⟩]
  tail := []
  recs := fun _ => ⟨⟨0, 0⟩, ⟨0, 0, []⟩, 0, 0⟩
  posInBuffer := 0

def clippedHits : List Hit :=
  [⟨⟨5, 1⟩, 1, 0, [7]⟩, ⟨⟨25, 1⟩, 1, 0, [7]⟩, ⟨⟨30, 1⟩, 1, 0, [7]⟩, ⟨⟨35, 1⟩, 1, 0, [7]⟩,
    ⟨⟨40, 1⟩, 1, 0, [7]⟩]

theorem clippedTerm_holds : (Term.stored clippedTerm).Holds ⟨true, false, true⟩ clippedHits := by
  have hhits : clippedTerm.chunkHits ⟨true, false, true⟩ = clippedHits := by decide
  have hchained : clippedTerm.Chained ⟨true, false, true⟩ ∅ [] := {
    skip := {
      chain := rfl
      sorted := .nil
      live := fun x => by simp
      step_ahead := fun x hx => absurd hx (Set.notMem_empty x)
      jump_ahead := fun x hx => absurd hx (Set.notMem_empty x) }
    length_le := by decide
    rid_pos := by simp
    length_pos := by simp
    sorted_pos := by simp }
  refine ⟨{
    sorted := ?_
    rid_pos := ?_
    nonempty := by simp [clippedTerm]
    length_pos := by simp [clippedTerm, Stored.loads]
    sorted_pos := ?_
    chained := ⟨_, _, hchained⟩ }, _, _, hchained, ?_⟩
  · rw [hhits]
    unfold Sorted clippedHits
    simp [Docid.lt_def]
  · rw [hhits]
    decide
  · rw [hhits]
    decide
  · rw [hhits]
    simp [clippedHits, Hit.visible]

end Cursor

end Groonga.Ii
