import Groonga.Ii.Posting

/-!
# Column maintenance: `grn_ii_column_update`

When a value of an indexed column is replaced, the index is told the old value and the
new one. Each is turned into a hash of update specifications, one for each term; a term
whose two specifications compare equal is left alone, a term of the old value only is
deleted, every other term of the new value is updated. A text vector of a lexicon with a
tokenizer is handled element by element, each element in the next section.

An index without `WITH_SECTION` stores all sections as section 1, so there the elements of
one vector write to the same posting. The last element that contains a term wins when the
vector is indexed; but when the vector is replaced, an element that did not change is
skipped and does not write again over the elements before it.
-/

namespace Groonga.Ii

open Lib

/-! ## Tokens -/

/-- `grn_tokenize_mode`, as far as the maintenance of an index uses it. -/
inductive TokenizeMode where
  | add
  | del
deriving DecidableEq, Repr

/-- What a token cursor yields before its term is looked up: the id the lexicon has, or
gives, to the token (0 when it refuses the key), whether the token is itself a record id
that is not looked up, whether a token filter left `GRN_TOKEN_KEEP_ORIGINAL` so that the
original token follows, and the position. -/
structure Token where
  tid : ℕ
  isRecord : Bool
  keepOriginal : Bool
  pos : ℕ
deriving DecidableEq, Repr

/-- What a token cursor is opened with: the record and the source column (by its section)
as far as they are set, the domain and the bytes of the text. -/
structure TokenQuery where
  sourceId : ℕ
  sourceColumn : ℕ
  domain : ℕ
  text : List UInt8
deriving DecidableEq, Repr

namespace Token

/-- Does `grn_token_cursor_next` get an id for the token? Only `add` gives it one. -/
def found (mode : TokenizeMode) (lexicon : List ℕ) (t : Token) : Bool :=
  t.tid ≠ 0 && (mode = .add || t.isRecord || t.tid ∈ lexicon)

/-- The lexicon after the look-up of a token that has an id. -/
def register (mode : TokenizeMode) (lexicon : List ℕ) (t : Token) : List ℕ :=
  if mode = .add && !t.isRecord then t.tid :: lexicon else lexicon

/-- The loop `while (!token_cursor->status)` around `grn_token_cursor_next`: a token
without an id sets `GRN_TOKEN_CURSOR_NOT_FOUND`, which ends it unless the original token is
still pending. -/
def read (mode : TokenizeMode) : List Token → List ℕ → List Token × List ℕ
  | [], lexicon => ([], lexicon)
  | t :: ts, lexicon =>
    if t.found mode lexicon then
      let r := read mode ts (t.register mode lexicon)
      (t :: r.1, r.2)
    else if t.keepOriginal then read mode ts lexicon
    else ([], lexicon)

/-- The tokens that are read when the lexicon lacks none it would accept. -/
def accepted : List Token → List Token
  | [] => []
  | t :: ts =>
    if t.tid ≠ 0 then t :: accepted ts else if t.keepOriginal then accepted ts else []

/-- Every token that is read can be looked up. -/
def Known (ts : List Token) (lexicon : List ℕ) : Prop :=
  ∀ t ∈ accepted ts, t.isRecord = true ∨ t.tid ∈ lexicon

theorem Known.mono {ts : List Token} {l l' : List ℕ} (h : Known ts l) (hl : l ⊆ l') :
    Known ts l' :=
  fun t ht => (h t ht).imp_right fun hm => hl hm

theorem subset_register (mode : TokenizeMode) (lexicon : List ℕ) (t : Token) :
    lexicon ⊆ t.register mode lexicon := by
  unfold register
  split_ifs with h
  · exact List.subset_cons_self _ _
  · exact List.Subset.refl _

theorem subset_read (mode : TokenizeMode) (ts : List Token) (lexicon : List ℕ) :
    lexicon ⊆ (read mode ts lexicon).2 := by
  induction ts generalizing lexicon with
  | nil => exact List.Subset.refl _
  | cons t ts ih =>
    unfold read
    split_ifs with hfound hkeep
    · exact List.Subset.trans (subset_register mode lexicon t) (ih _)
    · exact ih _
    · exact List.Subset.refl _

/-- Adding reads every token the lexicon accepts. -/
theorem read_add (ts : List Token) (lexicon : List ℕ) :
    (read .add ts lexicon).1 = accepted ts := by
  induction ts generalizing lexicon with
  | nil => rfl
  | cons t ts ih =>
    by_cases h : t.tid = 0
    · cases hk : t.keepOriginal <;> simp [read, accepted, found, h, hk, ih]
    · simp [read, accepted, found, h, ih]

/-- What has been added can be looked up. -/
theorem known_read_add (ts : List Token) (lexicon : List ℕ) :
    Known ts (read .add ts lexicon).2 := by
  induction ts generalizing lexicon with
  | nil => intro t ht; simp [accepted] at ht
  | cons t ts ih =>
    by_cases h : t.tid = 0
    · cases hk : t.keepOriginal with
      | true => simpa [Known, read, accepted, found, h, hk] using ih lexicon
      | false => simp [Known, accepted, h, hk]
    · intro t' ht'
      have hread : (read .add (t :: ts) lexicon).2 =
          (read .add ts (t.register .add lexicon)).2 := by simp [read, found, h]
      rw [hread]
      rw [accepted, if_pos h, List.mem_cons] at ht'
      rcases ht' with rfl | ht'
      · cases hrec : t'.isRecord with
        | true => exact .inl rfl
        | false =>
          refine .inr (subset_read .add ts _ ?_)
          simp [register, hrec]
      · exact ih _ t' ht'

/-- Deleting reads the same tokens as adding, once they are known. -/
theorem read_del {ts : List Token} {lexicon : List ℕ} (h : Known ts lexicon) :
    read .del ts lexicon = (accepted ts, lexicon) := by
  induction ts with
  | nil => rfl
  | cons t ts ih =>
    by_cases h0 : t.tid = 0
    · cases hk : t.keepOriginal with
      | true =>
        have hts : Known ts lexicon := by simpa [Known, accepted, h0, hk] using h
        simp [read, accepted, found, h0, hk, ih hts]
      | false => simp [read, accepted, found, h0, hk]
    · have hfound : t.found .del lexicon = true := by
        have := h t (by simp [accepted, h0])
        simpa [found, h0] using this
      have hts : Known ts lexicon := fun t' ht' =>
        h t' (by rw [accepted, if_pos h0]; exact List.mem_cons_of_mem _ ht')
      simp [read, accepted, h0, hfound, register, ih hts]

end Token

/-! ## Values and their specifications -/

/-- A `grn_section` of a vector: its bytes, its weight as an `int32_t` and its domain. -/
structure VectorSection where
  text : List UInt8
  weight : ℕ
  domain : ℕ
deriving DecidableEq, Repr

/-- A value of a column, after the lexicon's extractors. A `GRN_UVECTOR` either refers to
records of a table, with weights, or holds elements of a builtin type; of the latter the
memory after its body is kept too, as a cast makes the reader leave the body. -/
inductive Value where
  | bulk (domain : ℕ) (body : List UInt8)
  | vector (domain : ℕ) (sections : List VectorSection)
  | references (domain : ℕ) (elements : List (ℕ × ℕ))
  | numbers (domain width : ℕ) (body beyond : List UInt8)
deriving DecidableEq, Repr

/-- What an index column is created with: its flags, the lexicon and its key type, and the
analysis of texts. -/
structure Schema extends Layout where
  /-- `ii->obj.header.domain`, the id of the lexicon. -/
  domain : ℕ
  /-- `lexicon->header.domain`. -/
  keyDomain : ℕ
  haveTokenizer : Bool
  tokenize : TokenQuery → List Token
  /-- `grn_obj_cast` to the key type; nothing comes out when it fails. -/
  cast : ℕ → List UInt8 → List UInt8

/-- The content of an index column: the terms of its lexicon and its postings. -/
structure ColumnIndex where
  lexicon : List ℕ
  postings : Postings

/-- The hash of update specifications, in the order of its entries. -/
abbrev Specs := List (ℕ × Updspec)

/-- `grn_hash_add` of the term and `grn_ii_updspec_add`. -/
def specsAdd (rid sid : ℕ) (tid pos weight : ℕ) : Specs → Specs
  | [] => [(tid, updspecAdd (updspecOpen rid sid) pos weight)]
  | (t, u) :: specs =>
    if t = tid then (t, updspecAdd u pos weight) :: specs
    else (t, u) :: specsAdd rid sid tid pos weight specs

/-- One text to be tokenized, with its index in the value and its weight. -/
structure Item where
  query : TokenQuery
  index : ℕ
  weight : ℕ

/-- `GRN_RECORD_VALUE`: the record id in the first four bytes. -/
def recordValue (body : List UInt8) : ℕ := (body.take 4).foldr (fun b n => b.toNat + 256 * n) 0

/-- `grn_bulk_is_zero`. -/
def bulkIsZero (body : List UInt8) : Bool := body.all (· = 0)

/-- `grn_type_id_is_text_family`: `GRN_DB_SHORT_TEXT` to `GRN_DB_LONG_TEXT`. -/
def typeIdIsTextFamily (id : ℕ) : Bool := 14 ≤ id && id ≤ 16

/-- Is the value a text vector? -/
def Value.isTextVector : Value → Bool
  | .vector domain _ => typeIdIsTextFamily domain
  | _ => false

namespace Schema

variable (ii : Schema)

/-- The texts `grn_vector2updspecs` opens a token cursor on. -/
def vectorItems (rid originalSection : ℕ) (sections : List VectorSection) : List Item :=
  sections.zipIdx.filterMap fun (v, i) =>
    if v.text = [] then none
    else some ⟨⟨rid, originalSection, v.domain, v.text⟩, i, v.weight⟩

/-- The loop of `grn_uvector2updspecs_data`. After a cast the element size is that of the
cast element, and the next element is looked for with it. -/
def uvectorItems (domain : ℕ) (memory : List UInt8) : ℕ → ℕ → ℕ → List Item
  | 0, _, _ => []
  | n + 1, i, elementSize =>
    let element := (memory.drop (elementSize * i)).take elementSize
    if !ii.haveTokenizer && ii.keyDomain ≠ domain then
      let casted := ii.cast domain element
      ⟨⟨0, 0, domain, casted⟩, i, 0⟩ :: uvectorItems domain memory n (i + 1) casted.length
    else ⟨⟨0, 0, domain, element⟩, i, 0⟩ :: uvectorItems domain memory n (i + 1) elementSize

/-- The texts of a value; none for a value that is read as record ids. -/
def items (rid originalSection : ℕ) : Value → List Item
  | .bulk domain body =>
    if domain = ii.domain then [] else vectorItems rid originalSection [⟨body, 0, domain⟩]
  | .vector _ sections => vectorItems rid originalSection sections
  | .references _ _ => []
  | .numbers domain width body beyond =>
    ii.uvectorItems domain (body ++ beyond) (body.length / width) 0 width

/-- The record ids `grn_uvector2updspecs_id` reads; a value of the lexicon's own domain is
wrapped as a vector of one element without weight. -/
def references : Value → List (ℕ × ℕ)
  | .bulk domain body => if domain = ii.domain then [(recordValue body, 0)] else []
  | .references _ elements => elements
  | _ => []

/-- The inner loop over the tokens of one text. -/
def addTokens (rid sid : ℕ) (item : Item) (tokens : List Token) (specs : Specs) : Specs :=
  tokens.foldl (fun specs t =>
    specsAdd rid sid t.tid (if ii.haveTokenizer then t.pos else item.index) item.weight specs) specs

/-- One pass of the loop over the texts. -/
def addItem (mode : TokenizeMode) (rid sid : ℕ) (s : Specs × List ℕ) (item : Item) :
    Specs × List ℕ :=
  let r := Token.read mode (ii.tokenize item.query) s.2
  (ii.addTokens rid sid item r.1 s.1, r.2)

/-- `grn_uvector2updspecs_id`. -/
def addReferences (rid sid : ℕ) (elements : List (ℕ × ℕ)) (specs : Specs) : Specs :=
  elements.zipIdx.foldl (fun specs e => specsAdd rid sid e.1.1 e.2 e.1.2 specs) specs

/-- `grn_vector2updspecs` or `grn_uvector2updspecs`, whichever the value asks for, with the
lexicon the look-ups leave. -/
def updspecs (mode : TokenizeMode) (rid originalSection sid : ℕ) (v : Option Value)
    (lexicon : List ℕ) : Specs × List ℕ :=
  match v with
  | none => ([], lexicon)
  | some v =>
    (ii.items rid originalSection v).foldl (ii.addItem mode rid sid)
      (addReferences rid sid (ii.references v) [], lexicon)

/-! ## The update -/

/-- `do_grn_ii_updspec_cmp`: a new value of zero bytes only is written in any case. -/
def doUpdspecCmp : Option Value → Bool
  | some (.bulk domain body) => domain = ii.domain || !bulkIsZero body
  | _ => true

/-- One pass of the loop over the old specifications, on the new ones and the postings. -/
def compareOld (doCmp : Bool) (s : Specs × Postings) (e : ℕ × Updspec) : Specs × Postings :=
  match s.1.lookup e.1 with
  | some un =>
    if doCmp && updspecCmp e.2 un = 0 then (s.1.filter (·.1 ≠ e.1), s.2) else s
  | none => (s.1, s.2.deleteOne ii.toLayout e.1 e.2)

/-- `grn_ii_column_update_internal` on values it does not take apart. -/
def updateSection (s : ColumnIndex) (rid originalSection sid : ℕ) (old new : Option Value) :
    ColumnIndex :=
  let n := ii.updspecs .add rid originalSection sid new s.lexicon
  let o := ii.updspecs .del rid originalSection sid old n.2
  let r := o.1.foldl (ii.compareOld (ii.doUpdspecCmp new)) (n.1, s.postings)
  ⟨o.2, r.1.foldl (fun p e => p.updateOne ii.toLayout e.1 e.2) r.2⟩

/-- `grn_vector_size` of a text vector. -/
def vectorSize : Option Value → ℕ
  | some (.vector _ sections) => sections.length
  | _ => 0

/-- An element of a text vector, as the text it is maintained as: its weight is dropped. -/
def vectorElement (v : Option Value) (i : ℕ) : Option Value :=
  match v with
  | some (.vector domain sections) => (sections[i]?).map fun e => .bulk domain e.text
  | _ => none

/-- `is_text_vector_index` together with the test for a tokenizer. -/
def isTextVectorIndex (old new : Option Value) : Bool :=
  ii.haveTokenizer && (old.isSome || new.isSome) &&
    (old.all Value.isTextVector && new.all Value.isTextVector)

/-- `grn_ii_column_update`. -/
def columnUpdate (s : ColumnIndex) (rid sid : ℕ) (old new : Option Value) : ColumnIndex :=
  if rid = 0 then s
  else if ii.isTextVectorIndex old new then
    (List.range (max (vectorSize old) (vectorSize new))).foldl
      (fun s i => ii.updateSection s rid sid (sid + i) (vectorElement old i) (vectorElement new i)) s
  else ii.updateSection s rid sid sid old new

end Schema

end Groonga.Ii
