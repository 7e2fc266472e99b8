import Groonga.Lib.Occurrence
import Mathlib

/-!
# The search for keywords

`grn_bm_tunedbm` looks for the next occurrence of a keyword in a normalized text. A table gives for each
character how far the keyword may be moved if that character is under its end; the entry of its last
character is zeroed, so that a move by it stays where it is, and the loop of ten moves asks only three times whether
it stands. A keyword of one byte is looked for with `memchr`.

The checks of the text tell for each of its bytes how many bytes of the original text belong to it: zero inside of a
character, and a negative number for a character that comes from the same original one as the character before.
-/

namespace Groonga.Snip

open Lib

/-! ## Texts and conditions -/

/-- `grn_encoding`, as far as spaces depend on it. -/
inductive Encoding where
  | none
  | eucJp
  | utf8
  | sjis
  | latin1
  | koi8r
deriving DecidableEq, Repr

/-- A `grn_string` with checks: lengths are `unsigned int`s, checks `short`s. -/
structure NormalizedString where
  original : List UInt8
  normalized : List UInt8
  checks : List ℤ
  encoding : Encoding
  length_checks : checks.length = normalized.length
  checks_range : ∀ c ∈ checks, -2 ^ 15 ≤ c ∧ c < 2 ^ 15
  length_lt : normalized.length < 2 ^ 32

inductive StopFlag where
  | nonstop
  | stop
  | across
deriving DecidableEq, Repr

/-- `snip_cond`, without the tags: the keyword is normalized. -/
structure SnipCond where
  keyword : List UInt8
  bmBc : UInt8 → ℕ
  shift : ℕ
  found : ℕ
  lastFound : ℕ
  lastOffset : ℕ
  startOffset : ℕ
  endOffset : ℕ
  foundAlphaHead : ℕ
  count : ℕ
  stopflag : StopFlag

/-- `grn_bm_preBmBc`. -/
def preBmBc (x : List UInt8) : UInt8 → ℕ :=
  (List.range (x.length - 1)).foldl (fun bmBc i => Function.update bmBc (x.getD i 0) (x.length - (i + 1)))
    fun _ => x.length

/-- `grn_snip_cond_init`: it fails for an empty keyword. -/
def grnSnipCondInit (norm : List UInt8) : Option SnipCond :=
  if norm = [] then none
  else
    let last := norm.getD (norm.length - 1) 0
    some {
      keyword := norm
      bmBc := if norm.length ≠ 1 then Function.update (preBmBc norm) last 0 else fun _ => 0
      shift := if norm.length ≠ 1 then preBmBc norm last else 0
      found := 0, lastFound := 0, lastOffset := 0, startOffset := 0, endOffset := 0, foundAlphaHead := 0
      count := 0, stopflag := .nonstop }

/-- `grn_snip_cond_reinit`: the head of the last character stays. -/
def grnSnipCondReinit (cond : SnipCond) : SnipCond :=
  { cond with
    found := 0, lastFound := 0, lastOffset := 0, startOffset := 0, endOffset := 0, count := 0, stopflag := .nonstop }

/-! ## Offsets -/

/-- A number as a `size_t`. -/
def sizeT (n : ℤ) : ℕ := (n % 2 ^ 64).toNat

/-- `grn_isspace`, at the first byte of the text. Behind the text is a NUL. -/
def grnIsspace (str : List UInt8) (encoding : Encoding) : ℕ :=
  match str with
  | [] => 0
  | c :: rest =>
    if c = 0x20 ∨ c = 0x0c ∨ c = 0x0a ∨ c = 0x0d ∨ c = 0x09 ∨ c = 0x0b then 1
    else if c = 0x81 ∧ encoding = .sjis ∧ rest.getD 0 0 = 0x40 then 2
    else if c = 0xa1 ∧ encoding = .eucJp ∧ rest.getD 0 0 = 0xa1 then 2
    else if c = 0xe3 ∧ encoding = .utf8 ∧ rest.getD 0 0 = 0x80 ∧ rest.getD 1 0 = 0x80 then 3
    else 0

/-- The loop for `GRN_SNIP_SKIP_LEADING_SPACES`. -/
def skipLeadingSpaces (original : List UInt8) (encoding : Encoding) : ℕ → ℕ → ℕ
  | 0, startOffset => startOffset
  | fuel + 1, startOffset =>
    let i := grnIsspace (original.drop startOffset) encoding
    if startOffset < original.length ∧ i ≠ 0 then skipLeadingSpaces original encoding fuel (startOffset + i)
    else startOffset

/-- The loops that add the positive checks of some positions, from `i` on, to an offset. The last one of these positions is
the head of a character. -/
def addChecks (checks : List ℤ) : ℕ → ℕ → ℕ × ℕ → Option (ℕ × ℕ)
  | 0, _, sum => some sum
  | count + 1, i, sum =>
    checks[i]?.bind fun check =>
      addChecks checks count (i + 1) (if 0 < check then (sizeT (sum.1 + check), i) else sum)

/-- `GRN_BM_COMPARE`, behind the test of the check. -/
def report (s : NormalizedString) (skipSpaces : Bool) (cond : SnipCond) (found shift : ℕ) : Option SnipCond :=
  (addChecks s.checks (found - cond.lastFound) cond.lastFound (cond.lastOffset, cond.foundAlphaHead)).bind fun sum =>
    s.checks[found]?.bind fun check =>
      (if check < 0 then s.checks[sum.2]?.map fun head => (sizeT (sum.1 - head), sum.2)
        else some (sum.1, found)).bind fun last =>
        (addChecks s.checks (found + cond.keyword.length - last.2) last.2 (last.1, sum.2)).map fun sum' =>
          { cond with
            lastFound := last.2
            lastOffset := last.1
            startOffset :=
              if skipSpaces then skipLeadingSpaces s.original s.encoding s.original.length last.1 else last.1
            endOffset := sum'.1
            found := found + shift
            foundAlphaHead := sum.2 }

/-! ## The search -/

/-- `memchr` from a position on. -/
def memchr (y : List UInt8) (c : UInt8) (found : ℕ) : Option ℕ :=
  ((y.drop found).findIdx? (· = c)).map (found + ·)

/-- `bmBc[p[-1]]`. -/
def delta (bmBc : UInt8 → ℕ) (y : List UInt8) (p : ℕ) : Option ℕ := y[p - 1]?.map bmBc

/-- `p += bmBc[p[-1]]`. -/
def move (bmBc : UInt8 → ℕ) (y : List UInt8) (p : ℕ) : Option ℕ := (delta bmBc y p).map (p + ·)

/-- The loop of `GRN_BM_BM_COMPARE`, from the position `i` before the end on. -/
def compareLoop (x y : List UInt8) (p : ℕ) : ℕ → ℕ → Option Bool
  | 0, _ => some true
  | count + 1, i =>
    y[p - i]?.bind fun b => if x[x.length - i]? = some b then compareLoop x y p count (i + 1) else some false

/-- `GRN_BM_BM_COMPARE`: the position that it finds, if there is one and it is the start of a character. -/
def bmCompare (s : NormalizedString) (x : List UInt8) (p : ℕ) : Option (Option ℕ) :=
  s.normalized[p - 2]?.bind fun b =>
    if x[x.length - 2]? = some b then
      (compareLoop x s.normalized p (x.length - 2) 3).bind fun same =>
        if same then
          s.checks[p - x.length]?.map fun check => if check ≠ 0 then some (p - x.length) else none
        else some none
    else some none

/-- A test whether the moves have come to a stand, and three moves. -/
def moves (bmBc : UInt8 → ℕ) (y : List UInt8) (next : ℕ → Option (ℕ × Bool)) (p : ℕ) : Option (ℕ × Bool) :=
  (delta bmBc y p).bind fun delta1 =>
    if delta1 = 0 then some (p, true) else ((move bmBc y (p + delta1)).bind (move bmBc y)).bind next

/-- The body of the loop with ten moves: where it comes to, and whether the text is compared there. -/
def tenMoves (bmBc : UInt8 → ℕ) (y : List UInt8) (p : ℕ) : Option (ℕ × Bool) :=
  (move bmBc y p).bind (moves bmBc y (moves bmBc y (moves bmBc y fun p => some (p, false))))

/-- What a loop ends with: a position that it finds, or the place where it stops. -/
inductive Outcome where
  | found (position : ℕ)
  | stopped (p : ℕ)

/-- The loop with ten moves. -/
def fastLoop (s : NormalizedString) (cond : SnipCond) (limit : ℤ) : ℕ → ℕ → Option Outcome
  | 0, _ => none
  | fuel + 1, p =>
    if (p : ℤ) ≤ limit then
      (tenMoves cond.bmBc s.normalized p).bind fun r =>
        if r.2 then
          (bmCompare s cond.keyword r.1).bind fun found =>
            match found with
            | some f => some (.found f)
            | none => fastLoop s cond limit fuel (r.1 + cond.shift)
        else fastLoop s cond limit fuel r.1
    else some (.stopped p)

/-- The loop that looks at the limit with each move. -/
def slowLoop (s : NormalizedString) (cond : SnipCond) : ℕ → ℕ → Option Outcome
  | 0, _ => none
  | fuel + 1, p =>
    if p ≤ s.normalized.length then
      (delta cond.bmBc s.normalized p).bind fun delta1 =>
        if delta1 = 0 then
          (bmCompare s cond.keyword p).bind fun found =>
            match found with
            | some f => some (.found f)
            | none => slowLoop s cond fuel (p + cond.shift)
        else slowLoop s cond fuel (p + delta1)
    else some (.stopped p)

/-- The two loops. The products are `unsigned int`s. -/
def search (s : NormalizedString) (cond : SnipCond) : Option Outcome :=
  let n := s.normalized.length
  let m := cond.keyword.length
  let p := m + cond.found
  (if ((12 * m % 2 ^ 32 : ℕ) : ℤ) < n - cond.found then
    fastLoop s cond (n - (11 * m % 2 ^ 32 : ℕ)) (n + 2) p
  else some (.stopped p)).bind fun outcome =>
    match outcome with
    | .found f => some (.found f)
    | .stopped p => slowLoop s cond (n + 2) p

/-- `grn_bm_tunedbm`. It fails where it reads outside of the text. -/
def grnBmTunedbm (s : NormalizedString) (skipSpaces : Bool) (cond : SnipCond) : Option SnipCond :=
  if cond.keyword.length = 1 then
    if cond.found < s.normalized.length then
      match memchr s.normalized (cond.keyword.getD 0 0) cond.found with
      | some found =>
        s.checks[found]?.bind fun check =>
          if check ≠ 0 then report s skipSpaces cond found 1 else some { cond with stopflag := .stop }
      | none => some { cond with stopflag := .stop }
    else some { cond with stopflag := .stop }
  else
    (search s cond).bind fun outcome =>
      match outcome with
      | .found found => report s skipSpaces cond found cond.shift
      | .stopped _ => some { cond with stopflag := .stop }

/-- The calls until the search stops: the positions that they report, with their offsets. -/
def calls (s : NormalizedString) (skipSpaces : Bool) : ℕ → SnipCond → Option (List (ℕ × ℕ × ℕ))
  | 0, _ => none
  | fuel + 1, cond =>
    (grnBmTunedbm s skipSpaces cond).bind fun cond' =>
      if cond'.stopflag = .stop then some []
      else
        (calls s skipSpaces fuel cond').map fun reports =>
          (cond'.found - (if cond.keyword.length = 1 then 1 else cond.shift), cond'.startOffset, cond'.endOffset) ::
            reports

end Groonga.Snip
