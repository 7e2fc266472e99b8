import Groonga.Str
import Mathlib

/-!
# The n-gram tokenizer

The tokenizer goes through the normalized text character by character. A token is as many
characters as the unit has, from the current one on, or a run of characters of one type if
such runs are unified. With `loose_symbol` or `loose_blank` a text that has symbols or blanks
is tokenized twice: as it is and, behind an end mark, without them. A query is only tokenized
without them.

A pointer into the text is the rest of the text from there on, and a pointer into the
character types is the rest of them. The positions in the source text (`checks` and `offsets`)
are not used for tokens and are left out.
-/

namespace Groonga.Token

/-! ## Texts -/

/-- `grn_char_type`. -/
inductive CharType where
  | null
  | alpha
  | digit
  | symbol
  | hiragana
  | katakana
  | kanji
  | others
  | emoji
deriving DecidableEq, Repr

/-- A character type with `GRN_CHAR_BLANK`: a blank follows the character. -/
structure CharInfo where
  type : CharType
  blank : Bool
deriving DecidableEq, Repr

/-- What is behind the types of a text. -/
def CharInfo.null : CharInfo := ⟨.null, false⟩

/-- `grn_ngram_options`. -/
structure Options where
  unit : ℕ
  unifyAlphabet : Bool
  unifyDigit : Bool
  unifySymbol : Bool
  ignoreBlank : Bool
  removeBlank : Bool
  looseSymbol : Bool
  looseBlank : Bool
deriving DecidableEq, Repr

/-- `grn_ngram_tokenizer`. `normalized` is the text of the query. -/
structure Tokenizer where
  options : Options
  overlap : Bool
  looseIng : Bool
  looseNeed : Bool
  looseNeedEndMark : Bool
  pos : ℕ
  skip : ℕ
  nChars : ℕ
  next : List UInt8
  ctypes : List CharInfo
  normalized : List UInt8
deriving DecidableEq, Repr

/-- `*cp`. -/
def at' (cp : List CharInfo) : CharInfo := cp.headD .null

/-! ## Loose mode -/

/-- The characters that loose mode leaves out. -/
def Options.isLoose (o : Options) (c : CharInfo) : Bool :=
  (o.looseSymbol && c.type == .symbol) || (!o.removeBlank && o.looseBlank && c.blank)

/-- The loop of `ngram_switch_to_loose_mode`: the text and the types that are left. -/
def looseLoop (o : Options) : ℕ → List UInt8 → List CharInfo → List UInt8 × List CharInfo
  | 0, _, types => ([], [at' types])
  | fuel + 1, normalized, types =>
    let length := grnStrCharlenUtf8 normalized
    if length = 0 then ([], [at' types])
    else
      let (text, looseTypes) := looseLoop o fuel (normalized.drop length) types.tail
      if o.isLoose (at' types) then (text, looseTypes)
      else (normalized.take length ++ text, at' types :: looseTypes)

/-- `ngram_switch_to_loose_mode`. -/
def Tokenizer.switchToLooseMode (t : Tokenizer) : Tokenizer :=
  let (text, types) := looseLoop t.options t.normalized.length t.normalized t.ctypes
  { t with
    next := text
    ctypes := types
    nChars := types.length - 1
    pos := 0
    skip := 0
    overlap := false
    looseIng := true }

/-- `GRN_TOKENIZE_ADD` and `GRN_TOKENIZE_GET`. -/
inductive Mode where
  | add
  | get
deriving DecidableEq, Repr

/-- `ngram_init_raw`, for a normalized text with its types. A query of which nothing is left
in loose mode is tokenized as it is. -/
def ngramInit (o : Options) (mode : Mode) (normalized : List UInt8) (types : List CharInfo) :
    Tokenizer :=
  let t : Tokenizer :=
    { options := o
      overlap := false
      looseIng := false
      looseNeed := false
      looseNeedEndMark := false
      pos := 0
      skip := 0
      nChars := types.length - 1
      next := normalized
      ctypes := types
      normalized := normalized }
  match mode with
  | .add => t
  | .get =>
    let t' := t.switchToLooseMode
    if t'.nChars = 0 then { t' with next := normalized, ctypes := types, nChars := t.nChars } else t'

/-! ## Tokens -/

/-- `grn_token_status`. -/
structure Status where
  overlap : Bool
  unmatured : Bool
  last : Bool
  reachEnd : Bool
deriving DecidableEq, Repr

/-- `LOOSE_NEED_CHECK`. -/
def Tokenizer.looseNeedCheck (t : Tokenizer) (c : CharInfo) (need : Bool) : Bool :=
  need || (!t.looseIng &&
    ((t.options.looseSymbol && c.type == .symbol) || (t.options.looseBlank && c.blank)))

/-- A run of characters of one type: what is behind it, the number of its characters, and
`loose.need`. -/
def unifyLoop (t : Tokenizer) (type : CharType) (stopAtBlank : Bool) :
    ℕ → List UInt8 → List CharInfo → ℕ → Bool → List UInt8 × ℕ × Bool
  | 0, r, _, n, need => (r, n, need)
  | fuel + 1, r, cp, n, need =>
    let cl := grnStrCharlenUtf8 r
    if cl = 0 then (r, n, need)
    else
      let need := t.looseNeedCheck (at' cp) need
      if stopAtBlank && (at' cp).blank then (r.drop cl, n + 1, need)
      else if (at' cp.tail).type ≠ type then (r.drop cl, n + 1, need)
      else unifyLoop t type stopAtBlank fuel (r.drop cl) cp.tail (n + 1) need

/-- The character begins a run of characters that are unified. -/
def Options.unifies (o : Options) (c : CharInfo) : Bool :=
  (o.unifyAlphabet && c.type == .alpha) || (o.unifyDigit && c.type == .digit) ||
    (o.unifySymbol && c.type == .symbol)

/-- The characters of a token behind the first one. -/
def gramLoop (t : Tokenizer) (stopAtBlank : Bool) :
    ℕ → List UInt8 → List CharInfo → ℕ → Bool → List UInt8 × ℕ × Bool
  | 0, r, _, n, need => (r, n, need)
  | fuel + 1, r, cp, n, need =>
    let cl := grnStrCharlenUtf8 r
    if t.options.unit ≤ n ∨ cl = 0 then (r, n, need)
    else
      let need := t.looseNeedCheck (at' cp) need
      if stopAtBlank && (at' cp).blank then (r, n, need)
      else if t.options.unifies (at' cp.tail) then (r, n, need)
      else gramLoop t stopAtBlank fuel (r.drop cl) cp.tail (n + 1) need

/-- `GRN_TOKENIZER_END_MARK_UTF8`. -/
def endMark : List UInt8 := [0xef, 0xbf, 0xb0]

/-- What the scan for a token finds: what is behind the token, the number of its characters,
where the next one begins, and the new flags. -/
structure Scan where
  r : List UInt8
  nCharacters : ℕ
  next : List UInt8
  overlap : Bool
  need : Bool
  status : Status

/-- A run of characters of one type as a token. -/
def scanUnified (t : Tokenizer) (type : CharType) (stopAtBlank : Bool) (cp : List CharInfo)
    (need : Bool) : Scan :=
  let (r, n, need) := unifyLoop t type stopAtBlank t.next.length t.next cp 0 need
  ⟨r, n, r, false, need, ⟨false, false, false, false⟩⟩

/-- A token of as many characters as the unit has. -/
def scanGram (t : Tokenizer) (stopAtBlank : Bool) (cp : List CharInfo) (need : Bool) : Scan :=
  let cl := grnStrCharlenUtf8 t.next
  if cl = 0 then ⟨t.next, 0, t.next, t.overlap, need, ⟨false, false, false, false⟩⟩
  else
    let (r, n, need) := gramLoop t stopAtBlank t.next.length (t.next.drop cl) cp 1 need
    ⟨r, n, t.next.drop cl, n > 1, need, ⟨t.overlap, n < t.options.unit, false, false⟩⟩

/-- The scan of `ngram_next` at the current character. -/
def scan (t : Tokenizer) : Scan :=
  let cp := t.ctypes.drop (t.pos + t.skip)
  let inLooseBlankMode := t.looseIng && t.options.looseBlank
  let need := t.looseNeedCheck (at' cp) t.looseNeed
  if t.options.unifyAlphabet && (at' cp).type == .alpha then
    scanUnified t .alpha (!inLooseBlankMode) cp need
  else if t.options.unifyDigit && (at' cp).type == .digit then
    scanUnified t .digit (!inLooseBlankMode) cp need
  else if t.options.unifySymbol && (at' cp).type == .symbol then
    scanUnified t .symbol (!inLooseBlankMode && !t.options.ignoreBlank) cp need
  else scanGram t (!inLooseBlankMode && !t.options.ignoreBlank) cp need

/-- `ngram_next`: the token, its status and the tokenizer. -/
def ngramNext (t : Tokenizer) : List UInt8 × Status × Tokenizer :=
  if t.looseIng && t.looseNeedEndMark then
    (endMark, ⟨false, false, false, false⟩, { t.switchToLooseMode with looseNeedEndMark := false })
  else
    let s := scan t
    let last := s.r = t.next ∨ s.next = []
    let reachEnd := s.r = []
    -- the text has to be tokenized again in loose mode
    let loose := (last ∨ reachEnd) ∧ t.looseIng = false ∧ s.need = true
    (t.next.take (t.next.length - s.r.length),
      { s.status with
        last := decide last && !decide loose
        reachEnd := decide reachEnd && !decide loose },
      { t with
        overlap := s.overlap
        pos := t.pos + t.skip
        skip := if last then 0 else if s.overlap then 1 else s.nCharacters
        next := s.next
        looseNeed := s.need
        looseIng := t.looseIng || decide loose
        looseNeedEndMark := t.looseNeedEndMark || decide loose })

/-! ## The cursor -/

/-- `grn_token_cursor` without token filters. The lexicon is left out: it changes neither the
tokens nor their positions. -/
structure Cursor where
  mode : Mode
  done : Bool
  pos : ℤ
  tokenizer : Tokenizer
deriving DecidableEq, Repr

/-- A token of the cursor, with its position and whether it is a prefix. -/
structure CursorToken where
  pos : ℤ
  data : List UInt8
  forcePrefix : Bool
deriving DecidableEq, Repr

/-- `GRN_TABLE_MAX_KEY_SIZE`. -/
def grnTableMaxKeySize : ℕ := 0x1000

/-- One iteration of `grn_token_cursor_next`: a token, if one is delivered. -/
def Cursor.step (c : Cursor) : Option CursorToken × Cursor :=
  let (data, status, tokenizer) := ngramNext c.tokenizer
  let c := { c with
    tokenizer := tokenizer
    done := status.last || (c.mode == .get && status.reachEnd) }
  if data.length = 0 then (none, c)
  else if grnTableMaxKeySize < data.length then (none, c)
  else if status.unmatured && status.overlap && c.mode == .get then (none, { c with pos := c.pos + 1 })
  else
    (some ⟨c.pos + 1, data, status.unmatured && !status.overlap && status.reachEnd⟩,
      { c with pos := c.pos + 1 })

/-- The tokens that `grn_token_cursor_next` delivers until it is done. -/
def Cursor.tokens : ℕ → Cursor → List CursorToken
  | 0, _ => []
  | fuel + 1, c =>
    if c.done then []
    else c.step.1.toList ++ Cursor.tokens fuel c.step.2

/-- `grn_token_cursor_open` for a text in the encoding UTF-8. -/
def Cursor.start (o : Options) (mode : Mode) (normalized : List UInt8) (types : List CharInfo) : Cursor :=
  ⟨mode, false, -1, ngramInit o mode normalized types⟩

end Groonga.Token
