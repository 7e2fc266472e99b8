import Groonga.Ii.MergedStream
import Groonga.Lib.SearchTree

/-!
# The select cursor

A query is a list of token infos. The select cursor goes from one record and section in which all
of them occur to the next: who is behind is moved on to where the others are, and who jumps over
it gives the new aim. What is counted in a record depends on the mode: the positions at which the
tokens follow one another, or windows in which all of them, or all phrases of them, are found.

The weight of a record and the scores are left out: only whether a weight is zero decides what is
returned, and here it is not. The same holds for the intervals between single elements and the
additional interval for the last phrase, which are not set, and for the modes with products of
phrases.
-/

namespace Groonga.Ii

open Groonga.Lib

/-- `data->mode`. `GRN_OP_NEAR_NO_OFFSET` is `near` with offsets that were cleared. -/
inductive Mode where
  | exact
  | near
  | nearPhrase
  | orderedNearPhrase
deriving DecidableEq, Repr

/-- A mode that searches whole phrases. -/
def Mode.ofPhrases : Mode → Bool
  | .nearPhrase | .orderedNearPhrase => true
  | .exact | .near => false

/-- What a query says besides its tokens. -/
structure SelectQuery where
  mode : Mode
  nPhrases : ℕ
  maxInterval : ℤ
  minInterval : ℤ

/-- `grn_ii_select_data`: what the search needs of it. The current token info is an index. -/
structure SelectData extends SelectQuery where
  tokenInfos : List TokenInfo
  currentTokenInfo : ℕ
  docid : Docid
  next : Docid
  mayMatch : Bool
  pos : ℤ
  startPos : ℤ
  endPos : ℤ
  nOccurrences : ℕ

/-- `grn_ii_select_cursor_posting`. -/
structure SelectPosting where
  docid : Docid
  pos : ℤ
  startPos : ℤ
  endPos : ℤ
  tf : ℕ
deriving DecidableEq, Repr

/-- `grn_ii_select_cursor`. -/
structure SelectCursor where
  data : SelectData
  done : Bool

namespace SelectData

variable (ii : Layout)

/-! ## From record to record -/

/-- `grn_ii_select_cursor_next_skip`. -/
def nextSkip (fuel : ℕ) (data : SelectData) : Option (SelectData × Bool) :=
  match data.tokenInfos with
  | [] => some (data, false)
  | ti :: tis => do
    let (ti, ok) ← TokenInfo.skip ii fuel ti data.next
    return ({ data with tokenInfos := ti :: tis }, ok)

/-- How the loop of `prepare` ends: a token has no more places, a token is at a later place, or
all are in the record. -/
inductive Prepared where
  | ended
  | mismatch (next : Docid)
  | all

/-- The loop of `grn_ii_select_cursor_next_prepare` over the tokens behind the first one. -/
def prepareLoop (fuel : ℕ) (d : Docid) : List TokenInfo → Option (List TokenInfo × Prepared)
  | [] => some ([], .all)
  | ti :: tis => do
    let (ti, ok) ← TokenInfo.skip ii fuel ti d
    if !ok then return (ti :: tis, .ended)
    else if ti.p.docid ≠ d then return (ti :: tis, .mismatch ti.p.docid)
    else
      let (tis, r) ← prepareLoop fuel d tis
      return (ti :: tis, r)

/-- `grn_ii_select_cursor_next_prepare`; `false` when the search is over. -/
def prepare (fuel : ℕ) (data : SelectData) : Option (SelectData × Bool) :=
  match data.tokenInfos with
  | [] => some (data, false)
  | ti :: tis => do
    let d := ti.p.docid
    let data := { data with docid := d, next := ⟨d.rid, d.sid + 1⟩ }
    match ← prepareLoop ii fuel d tis with
    | (tis, .ended) => return ({ data with tokenInfos := ti :: tis }, false)
    | (tis, .mismatch next) =>
      return ({ data with tokenInfos := ti :: tis, next := next, mayMatch := false }, true)
    | (tis, .all) => return ({ data with tokenInfos := ti :: tis, mayMatch := true }, true)

/-! ## Tokens that follow one another -/

/-- The loop of `grn_ii_select_cursor_next_find`; the cursor counts all occurrences. -/
def findLoop (fuel : ℕ) : ℕ → (i count : ℕ) → SelectData → Option SelectData
  | 0, _, _, _ => none
  | k + 1, i, count, data =>
    let i := if i = data.tokenInfos.length then 0 else i
    match data.tokenInfos[i]? with
    | none => some data
    | some ti => do
      let (ti, ok) ← TokenInfo.skipPos ii fuel ti data.docid data.pos
      let data := { data with tokenInfos := data.tokenInfos.set i ti }
      if !ok then return data
      else if ti.p.docid ≠ data.docid then return { data with next := ti.p.docid }
      else
        let (count, data) :=
          if ti.pos = data.pos then
            (count + 1, { data with
              startPos := if count = 0 then data.pos else data.startPos
              endPos := max data.endPos ti.p.pos })
          else
            (1, { data with startPos := ti.pos, pos := ti.pos, endPos := (ti.p.pos : ℤ) })
        if count = data.tokenInfos.length then
          findLoop fuel k (i + 1) 0
            { data with
              endPos := max data.endPos ti.p.pos
              pos := data.pos + 1
              nOccurrences := data.nOccurrences + 1 }
        else findLoop fuel k (i + 1) count data

/-! ## Windows -/

/-- `grn_ii_select_skip_pos`. -/
def skipPos (fuel : ℕ) (data : SelectData) (pos : ℤ) : Option (SelectData × Bool) :=
  match data.tokenInfos[data.currentTokenInfo]? with
  | none => some (data, false)
  | some ti => do
    let (ti, ok) ← TokenInfo.skipPos ii fuel ti data.docid pos
    let data := { data with tokenInfos := data.tokenInfos.set data.currentTokenInfo ti }
    if !ok then return (data, false)
    else if ti.p.docid ≠ data.docid then return ({ data with next := ti.p.docid }, false)
    else return (data, true)

/-- `ti->pos` of a token info. -/
def posAt (data : SelectData) (i : ℕ) : ℤ := (data.tokenInfos[i]?.map TokenInfo.pos).getD 0

def phraseIdAt (data : SelectData) (i : ℕ) : ℕ :=
  (data.tokenInfos[i]?.map fun ti => ti.phraseId).getD 0

def nTokensAt (data : SelectData) (i : ℕ) : ℕ :=
  (data.tokenInfos[i]?.map fun ti => ti.nTokensInPhrase).getD 0

def mustLastAt (data : SelectData) (i : ℕ) : Bool :=
  (data.tokenInfos[i]?.map fun ti => ti.mustLast).getD false

/-- The loop of `grn_ii_select_data_find_phrase`, which is called with no lower bound for the
number of tokens in these modes. -/
def findPhraseLoop (fuel phraseId : ℕ) :
    ℕ → (tip : ℕ) → (tiLast mustLastTi : Option ℕ) → (startPos : ℤ) → (nSame : ℕ) → SelectData →
      Option (SelectData × Bool)
  | 0, _, _, _, _, _, _ => none
  | k + 1, tip, tiLast, mustLastTi, startPos, nSame, data =>
    let tip := if tip = data.tokenInfos.length then 0 else tip
    -- a whole round without the phrase
    let round := tiLast = some tip
    let nSame := if round then 0 else nSame
    let startPos := if round then startPos + 1 else startPos
    let tiLast := if tiLast = none then some tip else tiLast
    let data := { data with currentTokenInfo := tip }
    if data.phraseIdAt tip ≠ phraseId then
      findPhraseLoop fuel phraseId k (tip + 1) tiLast mustLastTi startPos nSame data
    else do
      let mustLastTi := if data.mustLastAt tip then some tip else mustLastTi
      let (data, ok) ← data.skipPos ii fuel startPos
      if !ok then return (data, false)
      else
        let pos := data.posAt tip
        let nSame := if pos = startPos then nSame + 1 else 1
        let tiLast := if startPos < pos then some tip else tiLast
        let nUsed := (data.tokenInfos[tip]?.map fun ti => ti.nUsedTokensInPhrase).getD 0
        if nSame = nUsed then
          return ({ data with currentTokenInfo := mustLastTi.getD tip }, true)
        else findPhraseLoop fuel phraseId k (tip + 1) tiLast mustLastTi pos nSame data

/-- `grn_ii_select_data_find_phrase`. -/
def findPhrase (fuel phraseId : ℕ) (startPos : ℤ) (data : SelectData) :
    Option (SelectData × Bool) :=
  findPhraseLoop ii fuel phraseId fuel 0 none none startPos 0 data

/-- `grn_ii_select_data_is_matched_near_phrase`. -/
def isMatchedNearPhrase (data : SelectData) (interval : ℤ) : Bool :=
  if interval < data.minInterval then false
  else if data.maxInterval < 0 then true
  else interval ≤ data.maxInterval

/-- No position is smaller than the one before. -/
def inOrder : List ℤ → Bool
  | p :: q :: ps => if q < p then false else inOrder (q :: ps)
  | _ => true

/-- Whether the window is one. -/
def matched (data : SelectData) (bt : EndedTree ℕ) (max : ℕ) (interval : ℤ) : Bool :=
  let nMustLasts := bt.items.countP data.mustLastAt
  if data.mode = .orderedNearPhrase then
    inOrder (data.tokenInfos.map TokenInfo.pos) && data.isMatchedNearPhrase interval
  else if 0 < nMustLasts then
    nMustLasts = 1 && data.mustLastAt max && data.isMatchedNearPhrase interval
  else (data.maxInterval < 0 || interval ≤ data.maxInterval) && data.minInterval ≤ interval

/-- The phrases are searched, and each gives the token info that stands for it. -/
def pushPhrases (fuel : ℕ) :
    List ℕ → EndedTree ℕ → SelectData → Option (SelectData × Option (EndedTree ℕ))
  | [], bt, data => some (data, some bt)
  | phraseId :: phraseIds, bt, data => do
    let (data, ok) ← data.findPhrase ii fuel phraseId data.pos
    if !ok then return (data, none)
    else pushPhrases fuel phraseIds (bt.push data.posAt data.currentTokenInfo) data

/-- The loop of `grn_ii_select_cursor_next_find_near`; the inner `none` is a tree whose ends are
not in order. -/
def nearLoop (fuel : ℕ) : ℕ → EndedTree ℕ → SelectData → Option (Option SelectData)
  | 0, _, _ => none
  | k + 1, bt, data =>
    match bt.min, bt.max with
    | some minTokenInfo, some maxTokenInfo => do
      let data := { data with currentTokenInfo := minTokenInfo }
      let min := data.posAt minTokenInfo
      let minNTokens := data.nTokensAt minTokenInfo
      let max := data.posAt maxTokenInfo
      if max < min then return none
      else
        let interval := if data.mode.ofPhrases then max - min - minNTokens else max - min
        let matched := data.matched bt maxTokenInfo interval
        let data := if matched then { data with nOccurrences := data.nOccurrences + 1 } else data
        let (data, ok) ←
          if data.mode.ofPhrases then
            data.findPhrase ii fuel (data.phraseIdAt minTokenInfo)
              (if matched then max + 1 else min + 1)
          else
            data.skipPos ii fuel
              (if matched then max + 1
                else if max - data.maxInterval ≤ min then min + 1 else max - data.maxInterval)
        if !ok then return some data
        else
          let bt := bt.reorderMin data.posAt
          let next := bt.min.getD minTokenInfo
          if data.mode.ofPhrases ∧ data.posAt next = min ∧ data.nTokensAt next = minNTokens then
            return some data
          else nearLoop fuel k bt data
    | _, _ => some (some data)

/-- `grn_ii_select_cursor_next_find_near`. -/
def findNear (fuel : ℕ) (data : SelectData) : Option (Option SelectData) :=
  if data.mode.ofPhrases then do
    match ← pushPhrases ii fuel (List.range data.nPhrases) .empty data with
    | (data, none) => return some data
    | (data, some bt) => nearLoop ii fuel fuel bt data
  else
    nearLoop ii fuel fuel
      ((List.range data.tokenInfos.length).foldl (EndedTree.push data.posAt) .empty) data

/-- What is counted in a record, with what is set before it; the inner `none` is an error. -/
def find (fuel : ℕ) (data : SelectData) : Option (Option SelectData) :=
  let data := { data with startPos := 0, endPos := 0, nOccurrences := 0, pos := 0 }
  if data.mode = .exact then (findLoop ii fuel fuel 0 0 data).map some else findNear ii fuel data

end SelectData

/-! ## The cursor -/

namespace SelectCursor

variable (ii : Layout)

/-- The loop of `grn_ii_select_cursor_next`, for two or more tokens and `GRN_OP_OR`. -/
def nextLoop (fuel : ℕ) : ℕ → SelectData → Option (SelectCursor × Option SelectPosting)
  | 0, _ => none
  | k + 1, data => do
    let (data, ok) ← data.prepare ii fuel
    if !ok then return (⟨data, true⟩, none)
    else if !data.mayMatch then
      let (data, ok) ← data.nextSkip ii fuel
      if !ok then return (⟨data, true⟩, none) else nextLoop fuel k data
    else
      match ← data.find ii fuel with
      | none => return (⟨data, true⟩, none)
      | some data =>
        if data.nOccurrences = 0 then
          let (data, ok) ← data.nextSkip ii fuel
          if !ok then return (⟨data, true⟩, none) else nextLoop fuel k data
        else
          let posting : SelectPosting :=
            ⟨data.docid, data.pos, data.startPos, data.endPos, data.nOccurrences⟩
          let (data, ok) ← data.nextSkip ii fuel
          return (⟨data, !ok⟩, some posting)

/-- `grn_ii_select_cursor_next`. -/
def next (fuel : ℕ) (cursor : SelectCursor) : Option (SelectCursor × Option SelectPosting) :=
  if cursor.done then some (cursor, none) else nextLoop ii fuel fuel cursor.data

/-- Calls of `next` until there are no more postings. -/
def results (fuel : ℕ) : ℕ → SelectCursor → Option (List SelectPosting)
  | 0, _ => none
  | k + 1, cursor => do
    match ← next ii fuel cursor with
    | (_, none) => return []
    | (cursor, some posting) => return posting :: (← results fuel k cursor)

end SelectCursor

/-! ## Opening -/

/-- A token of a query: the terms that it stands for. -/
structure QueryToken extends TokenLabel where
  terms : List Term

/-- A token of a phrase that is a whole query. -/
def QueryToken.plain (offset : ℕ) (terms : List Term) : QueryToken where
  offset := offset
  phraseId := 0
  nTokensInPhrase := 0
  nUsedTokensInPhrase := 0
  mustLast := false
  terms := terms

/-- A token info at the first place of its cursors. -/
def TokenInfo.ofCursors (label : TokenLabel) (c : Cursor) (bins : List Cursor) : TokenInfo where
  toTokenLabel := label
  cursors := c :: bins
  pos := (c.pos : ℤ) - label.offset
  p := c.occ

/-- `token_info_open` for these terms; without a posting there is no token info. -/
def TokenInfo.open' (ii : Layout) (q : QueryToken) : Option (Option TokenInfo) := do
  match ← CursorHeap.pushAll ii q.terms 0 with
  | [] => return none
  | c :: bins => return some (TokenInfo.ofCursors q.toTokenLabel c bins)

/-- `token_info_clear_offset`. -/
def TokenInfo.clearOffset (ti : TokenInfo) : TokenInfo := { ti with offset := 0 }

/-- The select cursor of a query. -/
def SelectCursor.open' (query : SelectQuery) (tis : List TokenInfo) : SelectCursor where
  data :=
    { toSelectQuery := query
      tokenInfos := tis
      currentTokenInfo := 0
      docid := ⟨0, 0⟩
      next := ⟨0, 0⟩
      mayMatch := false
      pos := 0
      startPos := 0
      endPos := 0
      nOccurrences := 0 }
  done := false

/-- A search: the token infos are opened, and the results are taken. When a token has no posting,
there are none. -/
def SelectCursor.select (ii : Layout) (fuel : ℕ) (query : SelectQuery) (noOffset : Bool)
    (qs : List QueryToken) : Option (List SelectPosting) := do
  let tis ← qs.mapM (TokenInfo.open' ii)
  match tis.mapM id with
  | none => return []
  | some tis =>
    results ii fuel fuel (open' query (if noOffset then tis.map TokenInfo.clearOffset else tis))

/-! ## Token infos as lines -/

open CursorHeap (Stream)

/-- The places of a token info. -/
structure Line where
  label : TokenLabel
  size : ℕ
  occs : List Occ

namespace Line

variable (ii : Layout) (skips : Prop)

/-- The position in the query that a place stands for. -/
def rel (x : Line) (o : Occ) : ℤ := (o.pos : ℤ) - x.label.offset

/-- A token info that is at the first place of a line. -/
structure Tracks (ti : TokenInfo) (x : Line) : Prop where
  stream : Stream ii skips ti.cursors x.size x.occs
  label : ti.toTokenLabel = x.label
  p : ∀ o ∈ x.occs.head?, ti.p = o

/-- And its position is that of the place. -/
def Placed (ti : TokenInfo) (x : Line) : Prop := ∀ o ∈ x.occs.head?, ti.pos = x.rel o

/-- The token occurs at the position `p` of a record and section. -/
def OccursAt (x : Line) (d : Docid) (p : ℤ) : Prop := ∃ o ∈ x.occs, o.docid = d ∧ x.rel o = p

/-- **A match**: all the tokens occur there. -/
def Matches (ls : List Line) (d : Docid) (p : ℤ) : Prop := ∀ x ∈ ls, x.OccursAt d p

/-- A line after places at its beginning were left out, but none of those in `keep`. -/
structure Shortened (keep : Docid → ℤ → Prop) (x x' : Line) : Prop where
  label : x'.label = x.label
  suffix : x'.occs <:+ x.occs
  size_le : x'.size ≤ x.size
  kept : ∀ d p, keep d p → x.OccursAt d p → x'.OccursAt d p

/-- Lines after such steps. -/
def Advanced (keep : Docid → ℤ → Prop) (ls ls' : List Line) : Prop :=
  List.Forall₂ (Shortened keep) ls ls'

/-- The lines begin in the record and section `d`, or behind it. -/
def From (d : Docid) (ls : List Line) : Prop := ∀ x ∈ ls, ∀ o ∈ x.occs, d ≤ o.docid

section

variable {ii} {skips} {keep keep' : Docid → ℤ → Prop} {x x' x'' : Line} {ls ls' ls'' : List Line}
  {d : Docid} {p : ℤ}

theorem Shortened.refl : Shortened keep x x := ⟨rfl, List.suffix_rfl, le_rfl, fun _ _ _ h => h⟩

theorem Shortened.mono (h : Shortened keep x x') (hkeep : ∀ d p, keep' d p → keep d p) :
    Shortened keep' x x' := { h with kept := fun d p hk => h.kept d p (hkeep d p hk) }

theorem Shortened.trans (h : Shortened keep x x') (h' : Shortened keep x' x'') :
    Shortened keep x x'' where
  label := h'.label.trans h.label
  suffix := h'.suffix.trans h.suffix
  size_le := h'.size_le.trans h.size_le
  kept d p hk ho := h'.kept d p hk (h.kept d p hk ho)

theorem Shortened.occursAt (h : Shortened keep x x') (ho : x'.OccursAt d p) : x.OccursAt d p := by
  obtain ⟨o, ho, hd, hp⟩ := ho
  refine ⟨o, h.suffix.subset ho, hd, ?_⟩
  rw [← hp, rel, rel, h.label]

theorem Advanced.refl (ls : List Line) : Advanced keep ls ls := by
  induction ls with
  | nil => exact .nil
  | cons x ls ih => exact .cons .refl ih

theorem Advanced.mono (h : Advanced keep ls ls') (hkeep : ∀ d p, keep' d p → keep d p) :
    Advanced keep' ls ls' := h.imp fun _ _ hx => hx.mono hkeep

theorem Advanced.trans (h : Advanced keep ls ls') (h' : Advanced keep ls' ls'') :
    Advanced keep ls ls'' := by
  induction h generalizing ls'' with
  | nil =>
    cases h'
    exact .nil
  | cons hx _ ih =>
    cases h' with
    | cons hx' hrest => exact .cons (hx.trans hx') (ih hrest)

/-- A line behind is in front too, shortened. -/
theorem Advanced.exists_left (h : Advanced keep ls ls') (hx : x' ∈ ls') :
    ∃ x ∈ ls, Shortened keep x x' := by
  induction h with
  | nil => cases hx
  | cons h0 _ ih =>
    rcases List.mem_cons.1 hx with rfl | hx
    · exact ⟨_, List.mem_cons_self, h0⟩
    · obtain ⟨x, hx, hs⟩ := ih hx
      exact ⟨x, List.mem_cons_of_mem _ hx, hs⟩

theorem Advanced.exists_right (h : Advanced keep ls ls') (hx : x ∈ ls) :
    ∃ x' ∈ ls', Shortened keep x x' := by
  induction h with
  | nil => cases hx
  | cons h0 _ ih =>
    rcases List.mem_cons.1 hx with rfl | hx
    · exact ⟨_, List.mem_cons_self, h0⟩
    · obtain ⟨x', hx', hs⟩ := ih hx
      exact ⟨x', List.mem_cons_of_mem _ hx', hs⟩

/-- **Matches that are kept.** -/
theorem Advanced.matches (h : Advanced keep ls ls') (hkeep : keep d p) :
    Matches ls d p ↔ Matches ls' d p := by
  constructor
  · intro hm x' hx'
    obtain ⟨x, hx, hs⟩ := h.exists_left hx'
    exact hs.kept d p hkeep (hm x hx)
  · intro hm x hx
    obtain ⟨x', hx', hs⟩ := h.exists_right hx
    exact hs.occursAt (hm x' hx')

theorem Advanced.from_ (h : Advanced keep ls ls') (hf : From d ls) : From d ls' := by
  intro x' hx' o ho
  obtain ⟨x, hx, hs⟩ := h.exists_left hx'
  exact hf x hx o (hs.suffix.subset ho)

/-- One line is shortened. -/
theorem Advanced.set {i : ℕ} (hi : ls[i]? = some x) (h : Shortened keep x x') :
    Advanced keep ls (ls.set i x') := by
  induction ls generalizing i with
  | nil => cases hi
  | cons y ls ih =>
    cases i with
    | zero =>
      cases hi
      exact .cons h (Advanced.refl ls)
    | succ i => exact .cons .refl (ih hi)

theorem tracks_set {tis : List TokenInfo} {ti : TokenInfo} {i : ℕ}
    (h : List.Forall₂ (Tracks ii skips) tis ls) (hx : Tracks ii skips ti x) :
    List.Forall₂ (Tracks ii skips) (tis.set i ti) (ls.set i x) := by
  induction h generalizing i with
  | nil => exact .nil
  | cons h0 hrest ih =>
    cases i with
    | zero => exact .cons hx hrest
    | succ i => exact .cons h0 ih

/-- The places of a token info are in order. -/
theorem Tracks.sorted {ti : TokenInfo} (h : Tracks ii skips ti x) :
    x.occs.Pairwise (· ≤ ·) := by
  obtain ⟨-, -, -, -, hsorted⟩ := h.stream
  exact hsorted

/-- **Moving on to a record and section.** -/
theorem Tracks.skip {ti : TokenInfo} (h : Tracks ii True ti x) {fuel : ℕ} (hfuel : x.size < fuel)
    (d : Docid) :
    ∃ ti' ok x', TokenInfo.skip ii fuel ti d = some (ti', ok) ∧ Tracks ii True ti' x' ∧
      Placed ti' x' ∧ x'.occs = (x.occs.dropWhile fun o => o.docid < d) ∧
      (ok = true ↔ x'.occs ≠ []) ∧ Shortened (fun d' _ => d ≤ d') x x' := by
  obtain ⟨ti', ok, m, hrun, hle, hlabel, hf, hok⟩ := TokenInfo.skip_spec h.stream trivial d
  have hlabel' := hlabel.trans h.label
  refine ⟨ti', ok, ⟨x.label, m, _⟩, hrun fuel hfuel, ⟨hf.stream, hlabel', hf.p⟩, fun o ho => ?_,
    rfl, hok, rfl, List.dropWhile_suffix _, hle, ?_⟩
  · rw [hf.pos o ho, rel, hlabel']
  · rintro d' p hd ⟨o, ho, rfl, hp⟩
    refine ⟨o, ?_, rfl, hp⟩
    rw [TokenInfo.dropWhile_eq_filter h.sorted]
    exact List.mem_filter.2 ⟨ho, decide_eq_true hd⟩

/-- **Moving on to a position.** -/
theorem Tracks.skipPos {ti : TokenInfo} (h : Tracks ii skips ti x) {fuel : ℕ}
    (hfuel : x.occs.length < fuel) (d : Docid) (pos : ℤ) :
    ∃ ti' ok x', TokenInfo.skipPos ii fuel ti d pos = some (ti', ok) ∧ Tracks ii skips ti' x' ∧
      Placed ti' x' ∧ x'.occs = (x.occs.dropWhile fun o => o.docid = d ∧ x.rel o < pos) ∧
      (ok = true ↔ x'.occs ≠ []) ∧ Shortened (fun d' p => d' = d → pos ≤ p) x x' := by
  obtain ⟨ti', ok, m, hrun, hle, hlabel, hf, hok⟩ := TokenInfo.skipPos_spec h.stream d pos
  have hlabel' := hlabel.trans h.label
  rw [h.label] at hf hok
  refine ⟨ti', ok, ⟨x.label, m, _⟩, hrun fuel hfuel, ⟨hf.stream, hlabel', hf.p⟩, fun o ho => ?_,
    rfl, hok, rfl, List.dropWhile_suffix _, hle, ?_⟩
  · rw [hf.pos o ho, rel, hlabel']
  rintro d' p hd ⟨o, ho, rfl, hp⟩
  refine ⟨o, ?_, rfl, hp⟩
  rw [← List.takeWhile_append_dropWhile
    (p := fun o : Occ => decide (o.docid = d ∧ (o.pos : ℤ) - x.label.offset < pos))
    (l := x.occs)] at ho
  refine (List.mem_append.1 ho).resolve_left fun hmem => ?_
  have := List.mem_takeWhile_imp hmem
  simp only [decide_eq_true_eq] at this
  have hle := hd this.1
  rw [← hp, rel] at hle
  omega

end

end Line

end Groonga.Ii
