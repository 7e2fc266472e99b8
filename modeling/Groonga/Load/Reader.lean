import Groonga.Load.Number
import Groonga.Str

/-!
# The JSON reader

`json_read` is an automaton over the bytes of a piece of the text. All it knows between two
pieces is in the loader: the state, the array of values with the positions where the open
arrays and objects begin, the value that is being read and a code point of a `\u` escape.

The array of values is never made smaller. Its first `values_size` entries count, and a new
entry is written at the place `values_size * sizeof(grn_obj)`, which is computed in 32 bits.

What the loader does with a record is a parameter, and so is `strtod`. The encoding is UTF-8.
-/

namespace Groonga.Load

variable {F σ : Type}

/-! ## The array of values -/

/-- Arrays are in brackets, objects in braces. -/
inductive Kind where
  | bracket
  | brace
deriving DecidableEq, Repr

/-- `GRN_JSON_LOAD_OPEN_BRACKET` or `GRN_JSON_LOAD_OPEN_BRACE` with a number of entries. -/
def Kind.entry : Kind → ℕ → Entry F
  | .bracket, size => .openBracket size
  | .brace, size => .openBrace size

/-- `GRN_UINT32_SET` for an array or object. -/
def Entry.setSize (size : ℕ) : Entry F → Entry F
  | .openBracket _ => .openBracket size
  | .openBrace _ => .openBrace size
  | e => e

/-- What the reader calls. -/
structure Env (F σ : Type) where
  emitLevel : ℕ
  strtod : Strtod F
  /-- what `bracket_close` and `brace_close` do at a depth with the entries from there on -/
  close : Kind → ℕ → List (Entry F) → σ → σ
  /-- the error for a piece that does not start with an array or object -/
  invalid : List UInt8 → σ → σ
  /-- `GRN_CANCEL` -/
  cancelled : σ → Bool

/-- The array of values: `level` has the innermost position first, `loader` is the rest of
the loader. `closed` is not in the source: it has, for each array or object that was closed,
the depth and the entries from its own on. -/
structure Store (F σ : Type) where
  values : List (Entry F)
  valuesSize : ℕ
  level : List ℕ
  loader : σ
  closed : List (ℕ × List (Entry F))

namespace Store

/-- Where `values_add` writes. An entry behind the last one makes the array longer. -/
def place (st : Store F σ) : ℕ := min (st.valuesSize * 32 % 2 ^ 32 / 32) st.values.length

/-- `values_add`, and the value that is put there. -/
def add (e : Entry F) (st : Store F σ) : Store F σ :=
  { st with
    values := if st.place < st.values.length then st.values.set st.place e else st.values ++ [e]
    valuesSize := (st.valuesSize + 1) % 2 ^ 32 }

/-- `JSON_READ_OPEN_BRACKET` and `JSON_READ_OPEN_BRACE`. -/
def openContainer (kind : Kind) (st : Store F σ) : Store F σ :=
  { st with level := st.valuesSize :: st.level }.add (kind.entry 0)

/-- `bracket_close` and `brace_close`. -/
def close (env : Env F σ) (kind : Kind) (st : Store F σ) : Store F σ :=
  match st.level with
  | [] => st
  | start :: level =>
    let size := (st.valuesSize + 2 ^ 32 - start - 1) % 2 ^ 32
    let values := st.values.modify start (Entry.setSize size)
    let st := { st with
      values := values
      level := level
      closed := st.closed ++ [(level.length, values.drop start)] }
    if env.emitLevel < level.length then st
    else { st with
      valuesSize := start
      loader := env.close kind level.length (values.drop start) st.loader }

end Store

/-! ## The state of the reader -/

/-- `grn_loader_stat`. -/
inductive Stat where
  | begin
  | token
  | string
  | symbol
  | number
  | stringEsc
  | unicode0
  | unicode1
  | unicode2
  | unicode3
  | ended
deriving DecidableEq, Repr

/-- The part of `grn_loader` that `json_read` uses. -/
structure Reader (F σ : Type) where
  store : Store F σ
  stat : Stat
  /-- `last`, as a position -/
  last : ℕ
  unichar : ℕ
  unicharHi : ℕ

/-- Bytes behind the text of an entry. -/
def Entry.put (bytes : List UInt8) : Entry F → Entry F
  | .scalar (.text text) => .scalar (.text (text ++ bytes))
  | e => e

/-- Another value in place of the text of an entry. -/
def Entry.convert (f : List UInt8 → Scalar F) : Entry F → Entry F
  | .scalar (.text text) => .scalar (f text)
  | e => e

namespace Reader

/-- The loader before the first piece. -/
def start (loader : σ) : Reader F σ where
  store := ⟨[], 0, [], loader, []⟩
  stat := .begin
  last := 0
  unichar := 0
  unicharHi := 0

/-- `values_add`. -/
def valuesAdd (r : Reader F σ) : Reader F σ :=
  { r with store := r.store.add (.scalar (.text [])), last := r.store.place }

/-- A change of `loader->last`. -/
def modifyLast (f : Entry F → Entry F) (r : Reader F σ) : Reader F σ :=
  { r with store := { r.store with values := r.store.values.modify r.last f } }

/-- `GRN_TEXT_PUT` to `loader->last`. -/
def put (bytes : List UInt8) (r : Reader F σ) : Reader F σ := r.modifyLast (Entry.put bytes)

/-- The state behind a value. -/
def afterValue (r : Reader F σ) : Reader F σ :=
  { r with stat := if r.store.level = [] then .ended else .token }

def openContainer (kind : Kind) (r : Reader F σ) : Reader F σ :=
  { r with store := r.store.openContainer kind, stat := .token, last := r.store.place }

def close (env : Env F σ) (kind : Kind) (r : Reader F σ) : Reader F σ :=
  let r := { r with store := r.store.close env kind }.afterValue
  if env.cancelled r.store.loader then { r with stat := .ended } else r

end Reader

/-! ## Bytes -/

/-- `grn_isspace`. -/
def grnIsspace : List UInt8 → ℕ
  | [] => 0
  | c :: str =>
    if c = 0x20 ∨ c = 0x0c ∨ c = 0x0a ∨ c = 0x0d ∨ c = 0x09 ∨ c = 0x0b then 1
    else if c = 0xe3 ∧ str.take 2 = [0x80, 0x80] then 3
    else 0

def isDigit (c : UInt8) : Bool := 0x30 ≤ c && c ≤ 0x39

def isAlpha (c : UInt8) : Bool := (0x41 ≤ c && c ≤ 0x5a) || (0x61 ≤ c && c ≤ 0x7a) || c == 0x5f

/-- A byte that continues a number. -/
def isNumber (c : UInt8) : Bool :=
  c == 0x2b || c == 0x2d || c == 0x2e || c == 0x65 || c == 0x45 || isDigit c

/-- The value of a hexadecimal digit. -/
def hexDigit? (c : UInt8) : Option ℕ :=
  if 0x30 ≤ c ∧ c ≤ 0x39 then some (c.toNat - 0x30)
  else if 0x61 ≤ c ∧ c ≤ 0x66 then some (c.toNat - 0x61 + 10)
  else if 0x41 ≤ c ∧ c ≤ 0x46 then some (c.toNat - 0x41 + 10)
  else none

/-- `null`, `true` and `false`; any other symbol is a text. -/
def convertSymbol (text : List UInt8) : Scalar F :=
  if text = [0x6e, 0x75, 0x6c, 0x6c] then .void
  else if text = [0x74, 0x72, 0x75, 0x65] then .bool true
  else if text = [0x66, 0x61, 0x6c, 0x73, 0x65] then .bool false
  else .text text

/-- The bytes of a code point, as `json_read` writes them. -/
def unicharBytes (u : ℕ) : List UInt8 :=
  if u < 0x80 then [UInt8.ofNat u]
  else if u < 0x800 then [UInt8.ofNat (u >>> 6 ||| 0xc0), UInt8.ofNat (u &&& 0x3f ||| 0x80)]
  else if u < 0x10000 then
    [UInt8.ofNat (u >>> 12 ||| 0xe0), UInt8.ofNat (u >>> 6 &&& 0x3f ||| 0x80),
      UInt8.ofNat (u &&& 0x3f ||| 0x80)]
  else
    [UInt8.ofNat (u >>> 18 ||| 0xf0), UInt8.ofNat (u >>> 12 &&& 0x3f ||| 0x80),
      UInt8.ofNat (u >>> 6 &&& 0x3f ||| 0x80), UInt8.ofNat (u &&& 0x3f ||| 0x80)]

/-- One more digit of an escape, in `uint32_t`. A byte that is no digit is ignored. -/
def addHex (unichar : ℕ) (c : UInt8) (weight : ℕ) : ℕ :=
  match hexDigit? c with
  | some d => (unichar + d * weight) % 2 ^ 32
  | none => unichar

/-! ## One iteration -/

namespace Reader

/-- A byte in `GRN_LOADER_BEGIN`, in a piece `beg`. -/
def stepBegin (env : Env F σ) (beg : List UInt8) (r : Reader F σ) (c : UInt8) (rest : List UInt8) :
    Reader F σ × List UInt8 :=
  if grnIsspace (c :: rest) ≠ 0 then (r, (c :: rest).drop (grnIsspace (c :: rest)))
  else if c = 0x5b then (r.openContainer .bracket, rest)
  else if c = 0x7b then (r.openContainer .brace, rest)
  else
    ({ r with
      store := { r.store with loader := env.invalid beg r.store.loader }
      stat := .ended }, c :: rest)

/-- A byte in `GRN_LOADER_TOKEN`. The first byte of a number or symbol is read again. -/
def stepToken (env : Env F σ) (r : Reader F σ) (c : UInt8) (rest : List UInt8) :
    Reader F σ × List UInt8 :=
  if grnIsspace (c :: rest) ≠ 0 then (r, (c :: rest).drop (grnIsspace (c :: rest)))
  else if c = 0x22 then ({ r.valuesAdd with stat := .string }, rest)
  else if c = 0x5b then (r.openContainer .bracket, rest)
  else if c = 0x7b then (r.openContainer .brace, rest)
  else if c = 0x3a then (r, rest)
  else if c = 0x2c then (r, rest)
  else if c = 0x5d then (r.close env .bracket, rest)
  else if c = 0x7d then (r.close env .brace, rest)
  else if c = 0x2b ∨ c = 0x2d ∨ isDigit c = true then ({ r.valuesAdd with stat := .number }, c :: rest)
  else if isAlpha c then ({ r.valuesAdd with stat := .symbol }, c :: rest)
  else if grnStrCharlenUtf8 (c :: rest) ≠ 0 then (r, (c :: rest).drop (grnStrCharlenUtf8 (c :: rest)))
  else (r, [])

def stepSymbol (r : Reader F σ) (c : UInt8) (rest : List UInt8) : Reader F σ × List UInt8 :=
  if isAlpha c || isDigit c then (r.put [c], rest)
  else ((r.modifyLast (Entry.convert convertSymbol)).afterValue, c :: rest)

def stepNumber (env : Env F σ) (r : Reader F σ) (c : UInt8) (rest : List UInt8) :
    Reader F σ × List UInt8 :=
  if isNumber c then (r.put [c], rest)
  else ((r.modifyLast (Entry.convert (convertNumber env.strtod))).afterValue, c :: rest)

/-- A byte of a string. The rest of the piece is dropped behind an invalid character. -/
def stepString (r : Reader F σ) (c : UInt8) (rest : List UInt8) : Reader F σ × List UInt8 :=
  if c = 0x5c then ({ r with stat := .stringEsc }, rest)
  else if c = 0x22 then (r.afterValue, rest)
  else if grnStrCharlenUtf8 (c :: rest) ≠ 0 then
    (r.put ((c :: rest).take (grnStrCharlenUtf8 (c :: rest))),
      (c :: rest).drop (grnStrCharlenUtf8 (c :: rest)))
  else (r, [])

def stepStringEsc (r : Reader F σ) (c : UInt8) : Reader F σ :=
  if c = 0x62 then { r.put [0x08] with stat := .string }
  else if c = 0x66 then { r.put [0x0c] with stat := .string }
  else if c = 0x6e then { r.put [0x0a] with stat := .string }
  else if c = 0x72 then { r.put [0x0d] with stat := .string }
  else if c = 0x74 then { r.put [0x09] with stat := .string }
  else if c = 0x75 then { r with stat := .unicode0 }
  else { r.put [c] with stat := .string }

/-- The first digit of an escape; a byte that is no digit leaves the code point before. -/
def stepUnicode0 (r : Reader F σ) (c : UInt8) : Reader F σ :=
  { r with
    unichar := match hexDigit? c with
      | some d => d * 0x1000
      | none => r.unichar
    stat := .unicode1 }

/-- The last digit of an escape. A high surrogate waits for the low one. -/
def stepUnicode3 (r : Reader F σ) (c : UInt8) : Reader F σ :=
  let u := addHex r.unichar c 1
  let r := { r with unichar := u, stat := .string }
  if 0xd800 ≤ u ∧ u ≤ 0xdbff then { r with unicharHi := u }
  else if 0xdc00 ≤ u ∧ u ≤ 0xdfff then
    r.put (unicharBytes
      ((0x10000 + (r.unicharHi + 2 ^ 32 - 0xd800) * 0x400 + u - 0xdc00) % 2 ^ 32))
  else r.put (unicharBytes u)

/-- One iteration of `json_read`: the reader and what is left of the piece. -/
def step (env : Env F σ) (beg : List UInt8) (r : Reader F σ) (c : UInt8) (rest : List UInt8) :
    Reader F σ × List UInt8 :=
  match r.stat with
  | .begin => r.stepBegin env beg c rest
  | .token => r.stepToken env c rest
  | .symbol => r.stepSymbol c rest
  | .number => r.stepNumber env c rest
  | .string => r.stepString c rest
  | .stringEsc => (r.stepStringEsc c, rest)
  | .unicode0 => (r.stepUnicode0 c, rest)
  | .unicode1 => ({ r with unichar := addHex r.unichar c 0x100, stat := .unicode2 }, rest)
  | .unicode2 => ({ r with unichar := addHex r.unichar c 0x10, stat := .unicode3 }, rest)
  | .unicode3 => (r.stepUnicode3 c, rest)
  | .ended => (r, [])

end Reader

/-- The loop of `json_read` over what is left of the piece `beg`. -/
def jsonReadLoop (env : Env F σ) (beg : List UInt8) :
    ℕ → Reader F σ → List UInt8 → Reader F σ
  | 0, r, _ => r
  | _ + 1, r, [] => r
  | fuel + 1, r, c :: rest =>
    jsonReadLoop env beg fuel (r.step env beg c rest).1 (r.step env beg c rest).2

/-- `json_read`: a byte is read after at most two changes of the state. -/
def jsonRead (env : Env F σ) (str : List UInt8) (r : Reader F σ) : Reader F σ :=
  jsonReadLoop env str (3 * str.length) r str

/-- The pieces of a text, one after the other. -/
def jsonReadPieces (env : Env F σ) (pieces : List (List UInt8)) (r : Reader F σ) : Reader F σ :=
  pieces.foldl (fun r str => jsonRead env str r) r

end Groonga.Load
