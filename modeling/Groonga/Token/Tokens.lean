import Groonga.Lib.Grams
import Groonga.Token.Ngram

/-!
# The tokens of a text

Without unified runs and blanks the tokens are the n-grams of the characters. A text that has
symbols, with `loose_symbol`, gives its n-grams, an end mark and the n-grams without the
symbols. The n-grams in front of the end mark are not all there: the tokenizer looks at the
characters of a token but the last one, and when it knows of a symbol it stops at the first
token that reaches the end.
-/

namespace Groonga.Token

open Lib

/-! ## Characters -/

/-- The bytes of characters. -/
def encode (cs : List Char) : List UInt8 := cs.flatMap String.utf8EncodeChar

@[simp] theorem encode_nil : encode [] = [] := rfl

theorem encode_cons (c : Char) (cs : List Char) :
    encode (c :: cs) = String.utf8EncodeChar c ++ encode cs := by
  rw [encode, List.flatMap_cons, encode]

theorem encode_append (cs cs' : List Char) : encode (cs ++ cs') = encode cs ++ encode cs' := by
  rw [encode, List.flatMap_append, encode, encode]

theorem encode_eq_nil_iff {cs : List Char} : encode cs = [] ↔ cs = [] := by
  cases cs with
  | nil => simp
  | cons c cs => simp [encode_cons, String.utf8EncodeChar_ne_nil]

theorem length_utf8EncodeChar_pos (c : Char) : 0 < (String.utf8EncodeChar c).length :=
  List.length_pos_iff.mpr String.utf8EncodeChar_ne_nil

theorem length_le_length_encode (cs : List Char) : cs.length ≤ (encode cs).length := by
  induction cs with
  | nil => simp
  | cons c cs ih =>
    have hpos := length_utf8EncodeChar_pos c
    rw [encode_cons, List.length_append, List.length_cons]
    omega

theorem charlen_encode {c : Char} (hc : c.toNat ≠ 0) (cs : List Char) :
    grnStrCharlenUtf8 (encode (c :: cs)) = (String.utf8EncodeChar c).length := by
  obtain ⟨first, others, hbytes, hchar⟩ := isCharacter_utf8EncodeChar c
  rw [encode_cons, hbytes, List.cons_append, hchar.charlen hc, List.length_cons]

/-- No character is NUL. -/
def NoNul (cs : List Char) : Prop := ∀ c ∈ cs, c.toNat ≠ 0

instance (cs : List Char) : Decidable (NoNul cs) :=
  List.decidableBAll (fun c : Char => c.toNat ≠ 0) cs

/-! ## One token -/

/-- The types that the normalizer gives to characters; there are no blanks. -/
structure Types where
  info : Char → CharInfo
  blank : ∀ c, (info c).blank = false

/-- The options of the tokenizers without unified runs. -/
structure Options.Plain (o : Options) : Prop where
  unit_pos : 1 ≤ o.unit
  unit_le : o.unit ≤ 255
  unifyAlphabet : o.unifyAlphabet = false
  unifyDigit : o.unifyDigit = false
  unifySymbol : o.unifySymbol = false

variable {types : Types} {t : Tokenizer} {c : Char} {cs : List Char}

/-- The types of a text. -/
def Types.of (types : Types) (cs : List Char) : List CharInfo := cs.map types.info ++ [.null]

@[simp] theorem at'_of (types : Types) (c : Char) (cs : List Char) :
    at' (types.of (c :: cs)) = types.info c := rfl

@[simp] theorem tail_of (types : Types) (c : Char) (cs : List Char) :
    (types.of (c :: cs)).tail = types.of cs := rfl

/-- The character is left out in loose mode. -/
def isSymbol (types : Types) (o : Options) (c : Char) : Bool :=
  o.looseSymbol && (types.info c).type == .symbol

/-- The tokenizer is in front of these characters. -/
structure Reading (types : Types) (t : Tokenizer) (cs : List Char) : Prop where
  next : t.next = encode cs
  ctypes : t.ctypes.drop (t.pos + t.skip) = types.of cs

/-- The characters of a token that are looked at for `loose.need`. -/
def examined (n : ℕ) (cs : List Char) : List Char := cs.take (max 1 (min n cs.length - 1))

/-- The first character is looked at, and then those in front of another one. -/
theorem examined_cons (k : ℕ) (c : Char) (cs : List Char) :
    examined (k + 1) (c :: cs) = c :: cs.take (min k cs.length - 1) := by
  rw [examined, List.length_cons]
  have : max 1 (min (k + 1) (cs.length + 1) - 1) = (min k cs.length - 1) + 1 := by omega
  rw [this, List.take_succ_cons]

theorem looseNeedCheck_info (c : Char) (need : Bool) :
    t.looseNeedCheck (types.info c) need = (need || (!t.looseIng && isSymbol types t.options c)) := by
  simp [Tokenizer.looseNeedCheck, isSymbol, types.blank]

/-- The loop over the characters of a token, behind the character `c`. -/
theorem gramLoop_eq {stop need : Bool} {fuel n : ℕ} (ho : t.options.Plain) (hnul : NoNul cs)
    (hfuel : cs.length ≤ fuel) :
    gramLoop t stop fuel (encode cs) (types.of (c :: cs)) n need =
      (encode (cs.drop (t.options.unit - n)), n + min (t.options.unit - n) cs.length,
        need || (!t.looseIng && ((c :: cs).take (min (t.options.unit - n) cs.length)).any
          (isSymbol types t.options))) := by
  induction cs generalizing c fuel n need with
  | nil =>
    cases fuel with
    | zero => simp [gramLoop]
    | succ fuel => simp [gramLoop, grnStrCharlenUtf8]
  | cons c' cs ih =>
    obtain ⟨fuel, rfl⟩ : ∃ k, fuel = k + 1 := ⟨fuel - 1, by rw [List.length_cons] at hfuel; omega⟩
    have hlen := charlen_encode (hnul c' List.mem_cons_self) cs
    have hpos : (String.utf8EncodeChar c').length ≠ 0 := Nat.ne_of_gt (length_utf8EncodeChar_pos c')
    have hunify : t.options.unifies (types.info c') = false := by
      simp [Options.unifies, ho.unifyAlphabet, ho.unifyDigit, ho.unifySymbol]
    simp only [gramLoop, hlen, hpos, or_false, at'_of, tail_of, types.blank, Bool.and_false,
      Bool.false_eq_true, if_false, hunify, looseNeedCheck_info]
    by_cases hn : t.options.unit ≤ n
    · have hzero : t.options.unit - n = 0 := by omega
      simp [hn, hzero]
    · have hdrop : (encode (c' :: cs)).drop (String.utf8EncodeChar c').length = encode cs := by
        rw [encode_cons, List.drop_left]
      obtain ⟨k, hk⟩ : ∃ k, t.options.unit - n = k + 1 := ⟨t.options.unit - n - 1, by omega⟩
      have hk' : t.options.unit - (n + 1) = k := by omega
      rw [if_neg hn, hdrop, ih (fun x hx => hnul x (List.mem_cons_of_mem _ hx))
        (by rw [List.length_cons] at hfuel; omega), hk, hk']
      have hmin : min (k + 1) (c' :: cs).length = min k cs.length + 1 := by
        rw [List.length_cons]
        omega
      rw [hmin, List.drop_succ_cons, List.take_succ_cons, List.any_cons]
      refine Prod.ext rfl (Prod.ext ?_ ?_)
      · simp only
        omega
      · simp only
        cases need <;> cases t.looseIng <;> simp

/-- **A token is an n-gram.** -/
theorem scan_eq (ho : t.options.Plain) (hnul : NoNul (c :: cs)) (h : Reading types t (c :: cs)) :
    scan t =
      { r := encode ((c :: cs).drop t.options.unit)
        nCharacters := min t.options.unit (cs.length + 1)
        next := encode cs
        overlap := decide (1 < min t.options.unit (cs.length + 1))
        need := t.looseNeed || (!t.looseIng &&
          (examined t.options.unit (c :: cs)).any (isSymbol types t.options))
        status := ⟨t.overlap, decide (min t.options.unit (cs.length + 1) < t.options.unit), false,
          false⟩ } := by
  have hunit := ho.unit_pos
  have hlen := charlen_encode (hnul c List.mem_cons_self) cs
  have hpos : (String.utf8EncodeChar c).length ≠ 0 := Nat.ne_of_gt (length_utf8EncodeChar_pos c)
  have hdrop : (encode (c :: cs)).drop (String.utf8EncodeChar c).length = encode cs := by
    rw [encode_cons, List.drop_left]
  have hfuel : cs.length ≤ (encode (c :: cs)).length :=
    Nat.le_trans (Nat.le_succ _) (length_le_length_encode (c :: cs))
  simp only [scan, h.ctypes, at'_of, ho.unifyAlphabet, ho.unifyDigit, ho.unifySymbol, Bool.false_and,
    Bool.false_eq_true, if_false, scanGram, h.next, hlen, hpos, hdrop,
    gramLoop_eq ho (fun x hx => hnul x (List.mem_cons_of_mem _ hx)) hfuel, looseNeedCheck_info]
  obtain ⟨k, hk⟩ : ∃ k, t.options.unit = k + 1 := ⟨t.options.unit - 1, by omega⟩
  have hmin : 1 + min (t.options.unit - 1) cs.length = min t.options.unit (cs.length + 1) := by omega
  rw [hmin, hk, List.drop_succ_cons, Nat.add_sub_cancel]
  congr 1
  rw [examined_cons, List.any_cons]
  rcases Nat.eq_zero_or_pos (min k cs.length) with hzero | hpositive
  · simp [hzero]
  · obtain ⟨m, hm⟩ : ∃ m, min k cs.length = m + 1 := ⟨min k cs.length - 1, by omega⟩
    rw [hm, List.take_succ_cons, List.any_cons, Nat.add_sub_cancel]
    cases t.looseNeed <;> cases t.looseIng <;> simp

/-- `loose.need` behind a token. -/
def needBehind (types : Types) (t : Tokenizer) (cs : List Char) : Bool :=
  t.looseNeed || (!t.looseIng && (examined t.options.unit cs).any (isSymbol types t.options))

/-- The token reaches the end, and the text has to be tokenized again in loose mode. -/
def switches (types : Types) (t : Tokenizer) (cs : List Char) : Bool :=
  decide (cs.length ≤ t.options.unit) && !t.looseIng && needBehind types t cs

/-- The tokenizer behind a token. -/
def behind (types : Types) (t : Tokenizer) (c : Char) (cs : List Char) : Tokenizer :=
  { t with
    overlap := decide (1 < min t.options.unit (cs.length + 1))
    pos := t.pos + t.skip
    skip := if cs = [] then 0 else 1
    next := encode cs
    looseNeed := needBehind types t (c :: cs)
    looseIng := t.looseIng || switches types t (c :: cs)
    looseNeedEndMark := t.looseNeedEndMark || switches types t (c :: cs) }

theorem ngramNext_eq (ho : t.options.Plain) (hnul : NoNul (c :: cs)) (h : Reading types t (c :: cs))
    (hmark : (t.looseIng && t.looseNeedEndMark) = false) :
    ngramNext t = (encode ((c :: cs).take t.options.unit),
      { overlap := t.overlap
        unmatured := decide (cs.length + 1 < t.options.unit)
        last := decide (cs = []) && !switches types t (c :: cs)
        reachEnd := decide (cs.length + 1 ≤ t.options.unit) && !switches types t (c :: cs) },
      behind types t c cs) := by
  have hunit := ho.unit_pos
  have hsplit : encode (c :: cs) =
      encode ((c :: cs).take t.options.unit) ++ encode ((c :: cs).drop t.options.unit) := by
    rw [← encode_append, List.take_append_drop]
  have hr : encode ((c :: cs).drop t.options.unit) = [] ↔ cs.length + 1 ≤ t.options.unit := by
    rw [encode_eq_nil_iff, List.drop_eq_nil_iff, List.length_cons]
  have hfirst : encode ((c :: cs).take t.options.unit) ≠ [] := by
    rw [ne_eq, encode_eq_nil_iff, List.take_eq_nil_iff]
    simp
    omega
  have hne : encode ((c :: cs).drop t.options.unit) ≠ encode (c :: cs) := by
    rw [hsplit]
    intro heq
    exact hfirst (List.self_eq_append_left.mp heq)
  have hlast : (encode ((c :: cs).drop t.options.unit) = encode (c :: cs) ∨ encode cs = []) ↔ cs = [] := by
    rw [or_iff_right hne, encode_eq_nil_iff]
  have hloose : ((cs = [] ∨ cs.length + 1 ≤ t.options.unit) ∧ t.looseIng = false ∧
      needBehind types t (c :: cs) = true) ↔ switches types t (c :: cs) = true := by
    have hends : (cs = [] ∨ cs.length + 1 ≤ t.options.unit) ↔ cs.length + 1 ≤ t.options.unit := by
      refine or_iff_right_of_imp ?_
      rintro rfl
      exact hunit
    rw [hends]
    simp only [switches, List.length_cons, Bool.and_eq_true, decide_eq_true_eq, Bool.not_eq_true', and_assoc]
  have hneed : (t.looseNeed || (!t.looseIng &&
      (examined t.options.unit (c :: cs)).any (isSymbol types t.options))) =
        needBehind types t (c :: cs) := rfl
  have hdata : (encode (c :: cs)).take
      ((encode (c :: cs)).length - (encode ((c :: cs).drop t.options.unit)).length) =
        encode ((c :: cs).take t.options.unit) := by
    rw [hsplit, List.length_append, Nat.add_sub_cancel, List.take_left]
  have hskip : (if cs = [] then 0 else
      if decide (1 < min t.options.unit (cs.length + 1)) = true then 1
      else min t.options.unit (cs.length + 1)) = if cs = [] then 0 else 1 := by
    split_ifs with h1 h2
    · rfl
    · rfl
    · rw [decide_eq_true_eq] at h2
      omega
  have hshort : decide (min t.options.unit (cs.length + 1) < t.options.unit) =
      decide (cs.length + 1 < t.options.unit) := by
    rw [decide_eq_decide]
    omega
  simp only [ngramNext, hmark, scan_eq ho hnul h, h.next, Bool.false_eq_true, if_false, hneed, hr, hlast,
    hloose, hdata, hskip, hshort, Bool.decide_eq_true, behind]

/-- The tokenizer goes on to the next character. -/
theorem Reading.behind {c' : Char} (h : Reading types t (c :: c' :: cs)) :
    Reading types (behind types t c (c' :: cs)) (c' :: cs) := by
  refine ⟨rfl, ?_⟩
  have htail := congrArg List.tail h.ctypes
  rw [List.tail_drop, tail_of] at htail
  simpa [Token.behind] using htail

/-! ## Loose mode -/

/-- A text without the characters that loose mode leaves out. -/
def looseText (types : Types) (o : Options) (cs : List Char) : List Char :=
  cs.filter fun c => !isSymbol types o c

theorem isLoose_info (o : Options) (c : Char) : o.isLoose (types.info c) = isSymbol types o c := by
  simp [Options.isLoose, isSymbol, types.blank]

theorem looseLoop_eq {o : Options} {fuel : ℕ} (hnul : NoNul cs) (hfuel : cs.length ≤ fuel) :
    looseLoop o fuel (encode cs) (types.of cs) =
      (encode (looseText types o cs), types.of (looseText types o cs)) := by
  induction cs generalizing fuel with
  | nil =>
    cases fuel with
    | zero => rfl
    | succ fuel => simp [looseLoop, grnStrCharlenUtf8, looseText, Types.of, at']
  | cons c cs ih =>
    obtain ⟨fuel, rfl⟩ : ∃ k, fuel = k + 1 := ⟨fuel - 1, by rw [List.length_cons] at hfuel; omega⟩
    have hlen := charlen_encode (hnul c List.mem_cons_self) cs
    have hpos : (String.utf8EncodeChar c).length ≠ 0 := Nat.ne_of_gt (length_utf8EncodeChar_pos c)
    have hdrop : (encode (c :: cs)).drop (String.utf8EncodeChar c).length = encode cs := by
      rw [encode_cons, List.drop_left]
    have htake : (encode (c :: cs)).take (String.utf8EncodeChar c).length = String.utf8EncodeChar c := by
      rw [encode_cons, List.take_left]
    have hrest := @ih fuel (fun x hx => hnul x (List.mem_cons_of_mem _ hx)) (Nat.le_of_succ_le_succ hfuel)
    simp only [looseLoop, hlen, hpos, if_false, hdrop, htake, at'_of, tail_of, isLoose_info, hrest]
    cases hsymbol : isSymbol types o c with
    | true => simp [looseText, hsymbol]
    | false => simp [looseText, hsymbol, encode_cons, Types.of]

/-- The tokenizer in loose mode is in front of the text that is left. -/
theorem reading_switchToLooseMode {d : List Char} (hnul : NoNul d) (htext : t.normalized = encode d)
    (htypes : t.ctypes = types.of d) :
    Reading types t.switchToLooseMode (looseText types t.options d) := by
  have hloop := @looseLoop_eq types d t.options (encode d).length hnul (length_le_length_encode d)
  refine ⟨?_, ?_⟩ <;> simp [Tokenizer.switchToLooseMode, htext, htypes, hloop]

/-! ## Tokens of the cursor -/

/-- Things at one position after the other. -/
def number {β : Type} : ℤ → List β → List (ℤ × β)
  | _, [] => []
  | p, x :: xs => (p, x) :: number (p + 1) xs

/-- A token with its position. -/
def placed (token : CursorToken) : ℤ × List UInt8 := (token.pos, token.data)

/-- A character has at most four bytes. -/
theorem length_encode_le (cs : List Char) : (encode cs).length ≤ 4 * cs.length := by
  induction cs with
  | nil => simp
  | cons c cs ih =>
    obtain ⟨first, others, hbytes, hchar⟩ := isCharacter_utf8EncodeChar c
    have hothers : others.length ≤ 3 := by
      rcases hchar.cases with ⟨-, -, rfl⟩ | ⟨-, -, -, -, hmax⟩
      · simp
      · exact hmax
    rw [encode_cons, hbytes, List.length_append, List.length_cons, List.length_cons]
    omega

/-- **One call of the tokenizer**, as the cursor sees it. -/
theorem step_eq {mode : Mode} {p : ℤ} (ho : t.options.Plain) (hnul : NoNul (c :: cs))
    (h : Reading types t (c :: cs)) (hmark : (t.looseIng && t.looseNeedEndMark) = false) :
    Cursor.step ⟨mode, false, p, t⟩ =
      (if decide (cs.length + 1 < t.options.unit) && t.overlap && mode == .get then none
        else some ⟨p + 1, encode ((c :: cs).take t.options.unit),
          decide (cs.length + 1 < t.options.unit) && !t.overlap &&
            (decide (cs.length + 1 ≤ t.options.unit) && !switches types t (c :: cs))⟩,
        ⟨mode, (decide (cs = []) && !switches types t (c :: cs)) ||
          (mode == .get && (decide (cs.length + 1 ≤ t.options.unit) && !switches types t (c :: cs))),
          p + 1, behind types t c cs⟩) := by
  have hunit := ho.unit_pos
  have hne : (encode ((c :: cs).take t.options.unit)).length ≠ 0 := by
    rw [ne_eq, List.length_eq_zero_iff, encode_eq_nil_iff, List.take_eq_nil_iff]
    simp
    omega
  have hshort : ¬ grnTableMaxKeySize < (encode ((c :: cs).take t.options.unit)).length := by
    have hle := length_encode_le ((c :: cs).take t.options.unit)
    have hmax := ho.unit_le
    rw [List.length_take] at hle
    unfold grnTableMaxKeySize
    omega
  simp only [Cursor.step, ngramNext_eq ho hnul h hmark, hne, hshort, if_false]
  split_ifs <;> rfl

/-! ## The tokens of a text -/

/-- Behind the last character the tokenizer only says so. -/
theorem step_nil {p : ℤ} (ho : t.options.Plain) (h : Reading types t []) (hloose : t.looseIng = true)
    (hmark : t.looseNeedEndMark = false) :
    (Cursor.step ⟨.add, false, p, t⟩).1 = none ∧ (Cursor.step ⟨.add, false, p, t⟩).2.done = true := by
  have hnext : t.next = [] := h.next
  constructor <;>
    simp [Cursor.step, ngramNext, scan, scanGram, hloose, hmark, hnext, ho.unifyAlphabet, ho.unifyDigit,
      ho.unifySymbol, grnStrCharlenUtf8]

theorem tokens_of_done {fuel : ℕ} {c : Cursor} (h : c.done = true) : Cursor.tokens fuel c = [] := by
  cases fuel with
  | zero => rfl
  | succ fuel => simp [Cursor.tokens, h]

theorem tokens_succ {fuel : ℕ} {c : Cursor} (h : c.done = false) :
    Cursor.tokens (fuel + 1) c = c.step.1.toList ++ Cursor.tokens fuel c.step.2 := by
  simp [Cursor.tokens, h]

/-- When a text is added, every token is delivered. -/
theorem tokens_add {fuel : ℕ} {p : ℤ} (ho : t.options.Plain) (hnul : NoNul (c :: cs))
    (h : Reading types t (c :: cs)) (hmark : (t.looseIng && t.looseNeedEndMark) = false) :
    (Cursor.tokens (fuel + 1) ⟨.add, false, p, t⟩).map placed =
      (p + 1, encode ((c :: cs).take t.options.unit)) ::
        (Cursor.tokens fuel ⟨.add, decide (cs = []) && !switches types t (c :: cs), p + 1,
          behind types t c cs⟩).map placed := by
  have hmode : (Mode.add == Mode.get) = false := rfl
  rw [tokens_succ rfl, step_eq ho hnul h hmark]
  simp only [hmode, Bool.and_false, Bool.false_eq_true, if_false, Bool.false_and, Bool.or_false,
    Option.toList_some, List.singleton_append, List.map_cons, placed]

/-- **In loose mode the tokens are all n-grams.** -/
theorem tokens_loose {fuel : ℕ} {p : ℤ} (ho : t.options.Plain) (hnul : NoNul cs)
    (h : Reading types t cs) (hloose : t.looseIng = true) (hmark : t.looseNeedEndMark = false)
    (hfuel : cs.length + 1 ≤ fuel) :
    (Cursor.tokens fuel ⟨.add, false, p, t⟩).map placed =
      number (p + 1) ((grams t.options.unit cs).map encode) := by
  induction cs generalizing t fuel p with
  | nil =>
    obtain ⟨fuel, rfl⟩ : ∃ k, fuel = k + 1 := ⟨fuel - 1, by omega⟩
    obtain ⟨hnone, hdone⟩ := @step_nil types t p ho h hloose hmark
    rw [tokens_succ rfl, hnone, tokens_of_done hdone]
    rfl
  | cons c cs ih =>
    obtain ⟨fuel, rfl⟩ : ∃ k, fuel = k + 1 := ⟨fuel - 1, by omega⟩
    have hswitch : switches types t (c :: cs) = false := by simp [switches, hloose]
    rw [tokens_add ho hnul h (by simp [hmark]), grams, List.map_cons, number]
    congr 1
    cases cs with
    | nil => exact congrArg (List.map placed) (tokens_of_done (by simp [hswitch]))
    | cons c' cs =>
      refine ih ho (fun x hx => hnul x (List.mem_cons_of_mem _ hx)) h.behind ?_ ?_
        (Nat.le_of_succ_le_succ hfuel)
      · simp [behind, hloose]
      · simp [behind, hmark, hswitch]

/-! ### The first pass over a text -/

/-- The tokens of the first pass over a text, and whether the text is tokenized again. -/
def firstPass (types : Types) (o : Options) : Bool → List Char → List (List Char) × Bool
  | need, [] => ([], need)
  | need, c :: cs =>
    let need := need || (examined o.unit (c :: cs)).any (isSymbol types o)
    if cs.length + 1 ≤ o.unit ∧ need = true then ([(c :: cs).take o.unit], true)
    else ((c :: cs).take o.unit :: (firstPass types o need cs).1, (firstPass types o need cs).2)

/-- All n-grams or, if there is a symbol in front of the last character, those up to the first
one that reaches the end. -/
def firstGrams (types : Types) (o : Options) (need : Bool) (cs : List Char) : List (List Char) :=
  if need || cs.dropLast.any (isSymbol types o) then (grams o.unit cs).take (cs.length - o.unit + 1)
  else grams o.unit cs

theorem firstPass_eq {o : Options} {need : Bool} (hunit : 1 ≤ o.unit) (hne : cs ≠ []) :
    firstPass types o need cs =
      (firstGrams types o need cs, need || cs.any (isSymbol types o)) := by
  induction cs generalizing need with
  | nil => exact absurd rfl hne
  | cons c cs ih =>
    obtain ⟨k, hk⟩ : ∃ k, o.unit = k + 1 := ⟨o.unit - 1, by omega⟩
    simp only [firstPass, hk, examined_cons, List.any_cons]
    by_cases hcs : cs = []
    · subst hcs
      cases need <;> cases isSymbol types o c <;> simp [firstGrams, firstPass, grams, hk]
    -- what is looked at is in front of the last character
    have hseen : (cs.take (min k cs.length - 1)).any (isSymbol types o) = true →
        cs.dropLast.any (isSymbol types o) = true := by
      rw [List.any_eq_true, List.any_eq_true]
      rintro ⟨x, hx, hsymbol⟩
      rw [List.dropLast_eq_take]
      exact ⟨x, List.take_subset_take_left _ (by omega) hx, hsymbol⟩
    have hfront : cs.dropLast.any (isSymbol types o) = true → cs.any (isSymbol types o) = true := by
      rw [List.any_eq_true, List.any_eq_true]
      rintro ⟨x, hx, hsymbol⟩
      exact ⟨x, List.dropLast_subset _ hx, hsymbol⟩
    rw [ih hcs, firstGrams, firstGrams, List.dropLast_cons_of_ne_nil hcs, List.any_cons, ← hk,
      List.length_cons, grams]
    rcases Nat.lt_or_ge k cs.length with hlong | hshort
    · -- the token ends in front of the end of the text
      have htake : cs.length + 1 - o.unit + 1 = (cs.length - o.unit + 1) + 1 := by omega
      rw [if_neg (by omega), htake, List.take_succ_cons]
      generalize (cs.take (min k cs.length - 1)).any (isSymbol types o) = seen at *
      generalize cs.dropLast.any (isSymbol types o) = front at *
      generalize cs.any (isSymbol types o) = all at *
      cases need <;> cases isSymbol types o c <;> cases seen <;> cases front <;> simp_all
    · -- the token reaches the end, and all but the last character is looked at
      have htake : cs.length + 1 - o.unit + 1 = 0 + 1 := by omega
      have hall : cs.take (min k cs.length - 1) = cs.dropLast := by
        rw [List.dropLast_eq_take]
        congr 1
        omega
      have hends : cs.length + 1 ≤ o.unit := by omega
      rw [hall, htake, List.take_succ_cons, List.take_zero]
      generalize cs.dropLast.any (isSymbol types o) = front at *
      generalize cs.any (isSymbol types o) = all at *
      cases need <;> cases isSymbol types o c <;> cases front <;> simp_all

/-- The end mark, and then the text in loose mode. -/
theorem tokens_endMark {d : List Char} {fuel : ℕ} {p : ℤ} (ho : t.options.Plain) (hnul : NoNul d)
    (htext : t.normalized = encode d) (htypes : t.ctypes = types.of d) (hloose : t.looseIng = true)
    (hmark : t.looseNeedEndMark = true) (hfuel : d.length + 2 ≤ fuel) :
    (Cursor.tokens fuel ⟨.add, false, p, t⟩).map placed =
      number (p + 1) (endMark :: (grams t.options.unit (looseText types t.options d)).map encode) := by
  obtain ⟨fuel, rfl⟩ : ∃ k, fuel = k + 1 := ⟨fuel - 1, by omega⟩
  have hstep : Cursor.step ⟨.add, false, p, t⟩ = (some ⟨p + 1, endMark, false⟩,
      ⟨.add, false, p + 1, { t.switchToLooseMode with looseNeedEndMark := false }⟩) := by
    simp [Cursor.step, ngramNext, hloose, hmark, endMark, grnTableMaxKeySize]
  have hreading := reading_switchToLooseMode hnul htext htypes
  have hle : (looseText types t.options d).length ≤ d.length := List.length_filter_le _ _
  have hrest := @tokens_loose types { t.switchToLooseMode with looseNeedEndMark := false }
    (looseText types t.options d) fuel (p + 1) ho
    (fun c hc => hnul c (List.mem_filter.mp hc).1) ⟨hreading.next, hreading.ctypes⟩ rfl rfl (by omega)
  rw [tokens_succ rfl, hstep, Option.toList_some, List.singleton_append, List.map_cons, hrest]
  rfl

/-- **The tokens of the first pass**, and then the text in loose mode if it has a symbol. -/
theorem tokens_first {d : List Char} {fuel : ℕ} {p : ℤ} (ho : t.options.Plain) (hnul : NoNul cs)
    (hne : cs ≠ []) (h : Reading types t cs) (hloose : t.looseIng = false)
    (hmark : t.looseNeedEndMark = false) (hnul' : NoNul d) (htext : t.normalized = encode d)
    (htypes : t.ctypes = types.of d) (hfuel : cs.length + d.length + 2 ≤ fuel) :
    (Cursor.tokens fuel ⟨.add, false, p, t⟩).map placed =
      number (p + 1) ((firstPass types t.options t.looseNeed cs).1.map encode ++
        if (firstPass types t.options t.looseNeed cs).2 then
          endMark :: (grams t.options.unit (looseText types t.options d)).map encode
        else []) := by
  induction cs generalizing t fuel p with
  | nil => exact absurd rfl hne
  | cons c cs ih =>
    obtain ⟨fuel, rfl⟩ : ∃ k, fuel = k + 1 := ⟨fuel - 1, by omega⟩
    have hneed : (t.looseNeed || (examined t.options.unit (c :: cs)).any (isSymbol types t.options)) =
        needBehind types t (c :: cs) := by
      simp [needBehind, hloose]
    have hswitch : switches types t (c :: cs) = true ↔
        cs.length + 1 ≤ t.options.unit ∧ needBehind types t (c :: cs) = true := by
      simp [switches, hloose]
    rw [List.length_cons] at hfuel
    rw [tokens_add ho hnul h (by simp [hloose]), firstPass]
    simp only [hneed, ← hswitch]
    cases hs : switches types t (c :: cs) with
    | true =>
      have hrest := @tokens_endMark types (behind types t c cs) d fuel (p + 1) ho hnul' htext htypes
        (by simp [behind, hs]) (by simp [behind, hs]) (by omega)
      simp only [Bool.not_true, Bool.and_false, if_true, hrest]
      rfl
    | false =>
      simp only [Bool.not_false, Bool.and_true, Bool.false_eq_true, if_false, List.map_cons,
        List.cons_append, number]
      congr 1
      cases cs with
      | nil =>
        -- the last character is looked at, and there was no symbol
        have hnone : needBehind types t [c] = false := by
          refine Bool.eq_false_iff.mpr fun htrue => ?_
          rw [hswitch.mpr ⟨ho.unit_pos, htrue⟩] at hs
          exact absurd hs (by simp)
        rw [hnone]
        exact congrArg (List.map placed) (tokens_of_done rfl)
      | cons c' cs =>
        refine ih ho (fun x hx => hnul x (List.mem_cons_of_mem _ hx)) (by simp) h.behind ?_ ?_ htext htypes
          (by omega)
        · simp [behind, hloose, hs]
        · simp [behind, hmark, hs]

/-- **The tokens of a query** that is at least as long as a token: the n-grams up to the first
one that reaches the end. -/
theorem tokens_get {fuel : ℕ} {p : ℤ} (ho : t.options.Plain) (hnul : NoNul cs)
    (h : Reading types t cs) (hloose : t.looseIng = true) (hmark : t.looseNeedEndMark = false)
    (hlong : t.options.unit ≤ cs.length) (hfuel : cs.length ≤ fuel) :
    Cursor.tokens fuel ⟨.get, false, p, t⟩ =
      (number (p + 1) (((grams t.options.unit cs).take (cs.length - t.options.unit + 1)).map encode)).map
        fun x => ⟨x.1, x.2, false⟩ := by
  induction cs generalizing t fuel p with
  | nil => exact absurd ho.unit_pos (by simpa using hlong)
  | cons c cs ih =>
    rw [List.length_cons] at hlong hfuel
    obtain ⟨fuel, rfl⟩ : ∃ k, fuel = k + 1 := ⟨fuel - 1, by omega⟩
    have hswitch : switches types t (c :: cs) = false := by simp [switches, hloose]
    have hmature : decide (cs.length + 1 < t.options.unit) = false := by simpa using hlong
    have hunit := ho.unit_pos
    rw [tokens_succ rfl, step_eq ho hnul h (by simp [hmark])]
    simp only [hmature, hswitch, Bool.false_and, Bool.false_eq_true, if_false, Option.toList_some,
      List.singleton_append, grams, List.length_cons, List.take_succ_cons, List.map_cons, number]
    congr 1
    rcases Nat.lt_or_ge t.options.unit (cs.length + 1) with hlt | hge
    · cases cs with
      | nil => exact absurd hunit (by simpa using hlt)
      | cons c' cs =>
        have htake : (c' :: cs).length + 1 - t.options.unit = (c' :: cs).length - t.options.unit + 1 := by
          omega
        have hdone : (decide ((c' :: cs) = []) && !false || (Mode.get == Mode.get &&
            (decide ((c' :: cs).length + 1 ≤ t.options.unit) && !false))) = false := by
          simp
          rw [List.length_cons] at hlt
          omega
        rw [htake, hdone]
        refine ih ho (fun x hx => hnul x (List.mem_cons_of_mem _ hx)) h.behind ?_ ?_
          (Nat.le_of_lt_succ hlt) (by omega)
        · simp [behind, hloose]
        · simp [behind, hmark, hswitch]
    · have hzero : cs.length + 1 - t.options.unit = 0 := by omega
      rw [hzero, List.take_zero]
      exact tokens_of_done (by simp [hge])

/-- **The token of a query** that is shorter than a token is a prefix. -/
theorem tokens_get_short {fuel : ℕ} {p : ℤ} (ho : t.options.Plain) (hnul : NoNul cs) (hne : cs ≠ [])
    (h : Reading types t cs) (hloose : t.looseIng = true) (hmark : t.looseNeedEndMark = false)
    (hoverlap : t.overlap = false) (hshort : cs.length < t.options.unit) (hfuel : 1 ≤ fuel) :
    Cursor.tokens fuel ⟨.get, false, p, t⟩ = [⟨p + 1, encode cs, true⟩] := by
  obtain ⟨fuel, rfl⟩ : ∃ k, fuel = k + 1 := ⟨fuel - 1, by omega⟩
  cases cs with
  | nil => exact absurd rfl hne
  | cons c cs =>
    rw [List.length_cons] at hshort
    have hswitch : switches types t (c :: cs) = false := by simp [switches, hloose]
    have htake : (c :: cs).take t.options.unit = c :: cs :=
      List.take_of_length_le (by rw [List.length_cons]; omega)
    have hends : cs.length + 1 ≤ t.options.unit := by omega
    rw [tokens_succ rfl, step_eq ho hnul h (by simp [hmark]), htake, tokens_of_done (by simp [hswitch, hends])]
    simp [hoverlap, hswitch, hshort, hends]

end Groonga.Token
