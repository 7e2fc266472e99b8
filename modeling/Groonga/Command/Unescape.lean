import Groonga.Load.Escape
import Groonga.Str.Characters
import Mathlib

/-!
# Tokens of a command line

`grn_text_unesc_tok` takes the next token off a command line. A token in quotation marks is what
`grn_text_esc` writes, and the text comes back, unless a character of it is written with its code
point: a backslash in front of a `u` only goes.
-/

namespace Groonga.Command

open Load

/-! ## The scanner -/

/-- `GRN_TOK_VOID`, `GRN_TOK_SYMBOL`, `GRN_TOK_STRING` and `GRN_TOK_QUOTE`. -/
inductive TokType where
  | void
  | symbol
  | string
  | quote
deriving DecidableEq, Repr

/-- `stat`: `esc` is `TOK_ESC`. -/
structure Stat where
  type : TokType
  esc : Bool
deriving DecidableEq, Repr

/-- Where the loop goes behind a character. -/
inductive Move where
  | next
  | stopBefore
  | stopBehind
deriving DecidableEq, Repr

/-- One turn of the loop of `grn_text_unesc_tok`: what it writes, the state and where it goes. -/
def unescStep (stat : Stat) (char : List UInt8) : List UInt8 × Stat × Move :=
  let c := char.headD 0
  match stat with
  | ⟨.void, false⟩ =>
    if c = 0x20 then ([], stat, .next)
    else if c = 0x22 then ([], ⟨.string, false⟩, .next)
    else if c = 0x27 then ([], ⟨.quote, false⟩, .next)
    else if c = 0x29 ∨ c = 0x28 then (char, ⟨.symbol, false⟩, .stopBehind)
    else if c = 0x5c then ([], ⟨.symbol, true⟩, .next)
    else (char, ⟨.symbol, false⟩, .next)
  | ⟨.symbol, false⟩ =>
    if c = 0x20 then ([], stat, .stopBefore)
    else if c = 0x27 ∨ c = 0x22 ∨ c = 0x29 ∨ c = 0x28 then ([], stat, .stopBefore)
    else if c = 0x5c then ([], ⟨.symbol, true⟩, .next)
    else (char, stat, .next)
  | ⟨.string, false⟩ =>
    if c = 0x22 then ([], stat, .stopBehind)
    else if c = 0x5c then ([], ⟨.string, true⟩, .next)
    else (char, stat, .next)
  | ⟨.quote, false⟩ =>
    if c = 0x27 then ([], stat, .stopBehind)
    else if c = 0x5c then ([], ⟨.quote, true⟩, .next)
    else (char, stat, .next)
  | ⟨type, true⟩ =>
    (if c = 0x62 then [0x08]
      else if c = 0x66 then [0x0c]
      else if c = 0x6e then [0x0a]
      else if c = 0x72 then [0x0d]
      else if c = 0x74 then [0x09]
      else char, ⟨type, false⟩, .next)

/-- A token with `tok_type`, and what is left of the line. -/
structure Token where
  buf : List UInt8
  stat : Stat
  rest : List UInt8
deriving DecidableEq, Repr

/-- The token with bytes in front of it. -/
def Token.behind (bytes : List UInt8) (t : Token) : Token := { t with buf := bytes ++ t.buf }

/-- The loop of `grn_text_unesc_tok`. -/
def unescTokLoop : ℕ → Stat → List UInt8 → Token
  | 0, stat, str => ⟨[], stat, str⟩
  | fuel + 1, stat, str =>
    let len := grnStrCharlenUtf8 str
    if str = [] then ⟨[], stat, []⟩
    else if len = 0 then ⟨[], { stat with esc := false }, []⟩
    else
      let r := unescStep stat (str.take len)
      match r.2.2 with
      | .next => (unescTokLoop fuel r.2.1 (str.drop len)).behind r.1
      | .stopBefore => ⟨r.1, r.2.1, str⟩
      | .stopBehind => ⟨r.1, r.2.1, str.drop len⟩

/-- `grn_text_unesc_tok`. -/
def grnTextUnescTok (str : List UInt8) : Token := unescTokLoop str.length ⟨.void, false⟩ str

/-! ## Runs over characters -/

variable {stat stat' : Stat} {c : Char} {cs text : List Char} {fuel : ℕ} {rest w : List UInt8}

/-- The characters are passed, and the bytes written. -/
def runChars : Stat → List Char → Option (List UInt8 × Stat)
  | stat, [] => some ([], stat)
  | stat, c :: cs =>
    let r := unescStep stat (String.utf8EncodeChar c)
    if c ≠ '\x00' ∧ r.2.2 = .next then (runChars r.2.1 cs).map fun q => (r.1 ++ q.1, q.2) else none

/-- One turn of the loop at a character. -/
theorem unescTokLoop_char (hc : c ≠ '\x00') :
    unescTokLoop (fuel + 1) stat (String.utf8EncodeChar c ++ rest) =
      match (unescStep stat (String.utf8EncodeChar c)).2.2 with
      | .next => (unescTokLoop fuel (unescStep stat (String.utf8EncodeChar c)).2.1 rest).behind
          (unescStep stat (String.utf8EncodeChar c)).1
      | .stopBefore => ⟨(unescStep stat (String.utf8EncodeChar c)).1, (unescStep stat (String.utf8EncodeChar c)).2.1,
          String.utf8EncodeChar c ++ rest⟩
      | .stopBehind => ⟨(unescStep stat (String.utf8EncodeChar c)).1, (unescStep stat (String.utf8EncodeChar c)).2.1,
          rest⟩ := by
  have hlen := charlen_utf8EncodeChar hc rest
  have hpos := List.length_pos_iff.mpr (String.utf8EncodeChar_ne_nil (c := c))
  have hne : String.utf8EncodeChar c ++ rest ≠ [] := by simp
  rw [unescTokLoop]
  dsimp only
  rw [if_neg hne, hlen, if_neg (by omega), List.take_left, List.drop_left]

/-- **A run of the loop.** -/
theorem unescTokLoop_run (h : runChars stat cs = some (w, stat')) :
    unescTokLoop (fuel + cs.length) stat (utf8 cs ++ rest) = (unescTokLoop fuel stat' rest).behind w := by
  induction cs generalizing stat w with
  | nil =>
    obtain ⟨rfl, rfl⟩ := Prod.mk.inj (Option.some.inj h)
    rfl
  | cons c cs ih =>
    rw [runChars] at h
    split_ifs at h with hnext
    obtain ⟨⟨w', stat''⟩, hrun, heq⟩ := Option.map_eq_some_iff.mp h
    obtain ⟨rfl, rfl⟩ := Prod.mk.inj heq
    rw [utf8_cons, List.append_assoc, List.length_cons, ← Nat.add_assoc, unescTokLoop_char hnext.1, hnext.2]
    dsimp only
    rw [ih hrun, Token.behind, Token.behind, Token.behind, List.append_assoc]

theorem runChars_append {w' : List UInt8} {stat'' : Stat} {cs' : List Char} (h : runChars stat cs = some (w, stat'))
    (h' : runChars stat' cs' = some (w', stat'')) : runChars stat (cs ++ cs') = some (w ++ w', stat'') := by
  induction cs generalizing stat w with
  | nil =>
    obtain ⟨rfl, rfl⟩ := Prod.mk.inj (Option.some.inj h)
    exact h'
  | cons c cs ih =>
    rw [runChars] at h
    split_ifs at h with hnext
    obtain ⟨⟨w₁, stat₁⟩, hrun, heq⟩ := Option.map_eq_some_iff.mp h
    obtain ⟨rfl, rfl⟩ := Prod.mk.inj heq
    rw [List.cons_append, runChars, if_pos hnext, ih hrun, Option.map_some, List.append_assoc]

/-! ## Escaped texts -/

/-- The character is written with its code point. -/
def CodePoint (c : Char) : Prop :=
  (c.toNat < 0x20 ∧ c ∉ ['\x08', '\x09', '\x0a', '\x0c', '\x0d']) ∨ c = '\x7f' ∨ c = '\u2028' ∨ c = '\u2029'

instance : DecidablePred CodePoint := fun _ => inferInstanceAs (Decidable (_ ∨ _))

/-- How `grn_text_esc` writes a character. -/
def escChar (c : Char) : List Char :=
  if CodePoint c then
    '\\' :: 'u' :: (grnItoh c.toNat 4).map fun b => Char.ofNat b.toNat
  else if c = '"' ∨ c = '\\' then ['\\', c]
  else if c = '\x08' then ['\\', 'b']
  else if c = '\x0c' then ['\\', 'f']
  else if c = '\x0a' then ['\\', 'n']
  else if c = '\x0d' then ['\\', 'r']
  else if c = '\x09' then ['\\', 't']
  else [c]

/-- What the scanner makes of it. -/
def backChar (c : Char) : List UInt8 := if CodePoint c then utf8 (escChar c).tail else String.utf8EncodeChar c

/-- The bytes of a character above ASCII begin above it. -/
theorem high_of_toNat (hc : 0x80 ≤ c.toNat) : ∃ first others, String.utf8EncodeChar c = first :: others ∧
    0x80 ≤ first ∧ others ≠ [] := by
  obtain ⟨first, others, heq, hchar⟩ := isCharacter_utf8EncodeChar c
  rcases hchar.cases with ⟨hlt, -⟩ | ⟨-, hhigh, -, hmin, -⟩
  · omega
  · exact ⟨first, others, heq, hhigh, List.ne_nil_of_length_pos hmin⟩

/-- Most characters above ASCII are written as they are. -/
theorem escChar_of_high (hc : 0x80 ≤ c.toNat) (hsep : ¬ (c = '\u2028' ∨ c = '\u2029')) :
    ¬ CodePoint c ∧ escChar c = [c] := by
  have hne : ∀ d : Char, d.toNat < 0x80 → c ≠ d := fun d hd h => absurd (h ▸ hd) (not_lt.mpr hc)
  have hplain : ¬ CodePoint c := by
    rintro (⟨hlow, -⟩ | h | h)
    · omega
    · exact hne _ (by decide) h
    · exact hsep h
  refine ⟨hplain, ?_⟩
  rw [escChar, if_neg hplain, if_neg (not_or.mpr ⟨hne _ (by decide), hne _ (by decide)⟩),
    if_neg (hne _ (by decide)), if_neg (hne _ (by decide)), if_neg (hne _ (by decide)), if_neg (hne _ (by decide)),
    if_neg (hne _ (by decide))]

/-- Every character comes back, or the digits of its code point behind a `u`. -/
theorem runChars_escChar (c : Char) : runChars ⟨.string, false⟩ (escChar c) = some (backChar c, ⟨.string, false⟩) := by
  have hascii : ∀ x < 128, runChars ⟨.string, false⟩ (escChar (Char.ofNat x)) =
      some (backChar (Char.ofNat x), ⟨.string, false⟩) := by decide +kernel
  by_cases hlt : c.toNat < 128
  · have hall := hascii c.toNat hlt
    rwa [Char.ofNat_toNat] at hall
  by_cases hsep : c = '\u2028' ∨ c = '\u2029'
  · rcases hsep with rfl | rfl
    all_goals decide
  · obtain ⟨hplain, hesc⟩ := escChar_of_high (not_lt.mp hlt) hsep
    obtain ⟨first, others, heq, hhigh, -⟩ := high_of_toNat (not_lt.mp hlt)
    have hne : c ≠ '\x00' := fun h => hlt (h ▸ by decide)
    have hquote : first ≠ 0x22 := by
      rintro rfl
      exact absurd hhigh (by decide)
    have hback : first ≠ 0x5c := by
      rintro rfl
      exact absurd hhigh (by decide)
    have hstep : unescStep ⟨.string, false⟩ (first :: others) = (first :: others, ⟨.string, false⟩, .next) := by
      simp [unescStep, hquote, hback]
    rw [backChar, if_neg hplain, hesc, runChars, heq, hstep, if_pos ⟨hne, rfl⟩, runChars, Option.map_some,
      List.append_nil]

/-- What `grn_text_esc` writes for a character. -/
theorem textEscLoop_escChar (c : Char) (fuel : ℕ) (rest : List UInt8) :
    textEscLoop (fuel + 1) (String.utf8EncodeChar c ++ rest) = utf8 (escChar c) ++ textEscLoop fuel rest := by
  have hascii : ∀ x < 128, String.utf8EncodeChar (Char.ofNat x) = [UInt8.ofNat x] ∧
      (if UInt8.ofNat x = 0 then [0x5c, 0x75] ++ grnItoh (UInt8.ofNat x).toNat 4 else escapeByte (UInt8.ofNat x)) =
        utf8 (escChar (Char.ofNat x)) := by decide +kernel
  by_cases hlt : c.toNat < 128
  · obtain ⟨hbytes, hesc⟩ := hascii c.toNat hlt
    rw [Char.ofNat_toNat] at hbytes hesc
    have hlow : ¬ 0x80 ≤ UInt8.ofNat c.toNat := (ofNat_of_ascii c.toNat hlt).2
    rw [← hesc, hbytes, List.singleton_append, textEscLoop, grnStrCharlenUtf8]
    by_cases hzero : UInt8.ofNat c.toNat = 0
    · rw [if_pos hzero, if_pos rfl, if_pos hzero]
    · rw [if_neg hzero, if_neg hlow, if_neg (by decide), if_pos rfl, if_neg hzero]
  · obtain ⟨first, others, heq, -, hothers⟩ := high_of_toNat (not_lt.mp hlt)
    have hne : c ≠ '\x00' := fun h => hlt (h ▸ by decide)
    have hlen := charlen_utf8EncodeChar hne rest
    have hesc : escapeBytes (String.utf8EncodeChar c) = utf8 (escChar c) := by
      by_cases hsep : c = '\u2028' ∨ c = '\u2029'
      · rcases hsep with rfl | rfl
        all_goals decide
      · have h28 : String.utf8EncodeChar c ≠ [0xe2, 0x80, 0xa8] := fun h => hsep (.inl (utf8EncodeChar_injective h))
        have h29 : String.utf8EncodeChar c ≠ [0xe2, 0x80, 0xa9] := fun h => hsep (.inr (utf8EncodeChar_injective h))
        rw [(escChar_of_high (not_lt.mp hlt) hsep).2, escapeBytes, if_neg h28, if_neg h29]
        exact (List.flatMap_singleton _ _).symm
    rw [heq, List.cons_append] at hlen ⊢
    rw [textEscLoop, hlen, if_neg (by simp), if_neg (by simp [hothers]), ← hesc, ← List.cons_append, ← heq,
      List.take_left, List.drop_left]

/-- **What `grn_text_esc` writes.** -/
theorem grnTextEsc_eq (text : List Char) : grnTextEsc (utf8 text) = utf8 ('"' :: (text.flatMap escChar ++ ['"'])) := by
  have hloop : ∀ (text : List Char) (fuel : ℕ), (utf8 text).length ≤ fuel →
      textEscLoop fuel (utf8 text) = utf8 (text.flatMap escChar) := by
    intro text
    induction text with
    | nil => exact fun fuel _ => by cases fuel <;> rfl
    | cons c text ih =>
      intro fuel hfuel
      have hpos := List.length_pos_iff.mpr (String.utf8EncodeChar_ne_nil (c := c))
      rw [utf8_cons, List.length_append] at hfuel
      obtain ⟨fuel, rfl⟩ : ∃ n, fuel = n + 1 := ⟨fuel - 1, by omega⟩
      rw [utf8_cons, textEscLoop_escChar, ih fuel (by omega), List.flatMap_cons, utf8_append]
  rw [grnTextEsc, hloop text _ (Nat.le_refl _), utf8_cons, utf8_append]
  rfl

/-! ## Tokens -/

theorem length_le_length_utf8 (text : List Char) : text.length ≤ (utf8 text).length := by
  induction text with
  | nil => exact Nat.le_refl 0
  | cons c text ih =>
    have hpos := List.length_pos_iff.mpr (String.utf8EncodeChar_ne_nil (c := c))
    rw [utf8_cons, List.length_append, List.length_cons]
    omega

/-- A token begins with a run. -/
theorem grnTextUnescTok_run (h : runChars ⟨.void, false⟩ cs = some (w, stat)) (rest : List UInt8) :
    ∃ fuel, rest.length ≤ fuel ∧ grnTextUnescTok (utf8 cs ++ rest) = (unescTokLoop fuel stat rest).behind w := by
  have hle : rest.length + cs.length ≤ (utf8 cs ++ rest).length := by
    have hcs := length_le_length_utf8 cs
    rw [List.length_append]
    omega
  obtain ⟨fuel, hfuel⟩ := Nat.exists_eq_add_of_le' hle
  refine ⟨fuel + rest.length, Nat.le_add_left _ _, ?_⟩
  rw [grnTextUnescTok, hfuel, ← Nat.add_assoc, unescTokLoop_run h]

/-- A space in front of a token goes. -/
theorem grnTextUnescTok_space (str : List UInt8) : grnTextUnescTok (0x20 :: str) = grnTextUnescTok str :=
  @unescTokLoop_char ⟨.void, false⟩ ' ' str.length str (by decide)

/-- **The token of an escaped text.** -/
theorem grnTextUnescTok_esc (text : List Char) (rest : List UInt8) :
    grnTextUnescTok (grnTextEsc (utf8 text) ++ rest) = ⟨text.flatMap backChar, ⟨.string, false⟩, rest⟩ := by
  have htext : runChars ⟨.string, false⟩ (text.flatMap escChar) = some (text.flatMap backChar, ⟨.string, false⟩) := by
    induction text with
    | nil => rfl
    | cons c text ih => exact runChars_append (runChars_escChar c) ih
  have hrun : runChars ⟨.void, false⟩ ('"' :: text.flatMap escChar) = some (text.flatMap backChar, ⟨.string, false⟩) :=
    runChars_append (show runChars ⟨.void, false⟩ ['"'] = some ([], ⟨.string, false⟩) by decide) htext
  obtain ⟨fuel, hfuel, heq⟩ := grnTextUnescTok_run hrun (String.utf8EncodeChar '"' ++ rest)
  have hbytes : grnTextEsc (utf8 text) ++ rest =
      utf8 ('"' :: text.flatMap escChar) ++ (String.utf8EncodeChar '"' ++ rest) := by
    rw [grnTextEsc_eq, ← List.cons_append, utf8_append, List.append_assoc]
    rfl
  obtain ⟨n, rfl⟩ := Nat.exists_eq_add_of_le' (Nat.le_trans (Nat.le_add_left 1 rest.length) hfuel)
  rw [hbytes, heq, unescTokLoop_char (by decide)]
  exact congrArg (fun buf => (⟨buf, ⟨.string, false⟩, rest⟩ : Token)) (List.append_nil _)

/-- The token is longer when a character is written with its code point. -/
theorem length_backChar (c : Char) : (String.utf8EncodeChar c).length ≤ (backChar c).length ∧
    (CodePoint c → (String.utf8EncodeChar c).length < (backChar c).length) := by
  rw [backChar]
  by_cases hc : CodePoint c
  · have hlow : ∀ x < 0x20, CodePoint (Char.ofNat x) → (String.utf8EncodeChar (Char.ofNat x)).length <
        (utf8 (escChar (Char.ofNat x)).tail).length := by decide +kernel
    have hlt : (String.utf8EncodeChar c).length < (utf8 (escChar c).tail).length := by
      rcases hc with ⟨hx, hmem⟩ | rfl | rfl | rfl
      · have hall := hlow c.toNat hx
        rw [Char.ofNat_toNat] at hall
        exact hall (.inl ⟨hx, hmem⟩)
      all_goals decide
    rw [if_pos hc]
    exact ⟨hlt.le, fun _ => hlt⟩
  · rw [if_neg hc]
    exact ⟨Nat.le_refl _, fun h => absurd h hc⟩

/-- **An escaped text comes back as the token** exactly when no character of it is written with its
code point. -/
theorem flatMap_backChar_iff (text : List Char) : text.flatMap backChar = utf8 text ↔ ∀ c ∈ text, ¬ CodePoint c := by
  have hle : ∀ text : List Char, (utf8 text).length ≤ (text.flatMap backChar).length := by
    intro text
    induction text with
    | nil => exact Nat.le_refl 0
    | cons c text ih =>
      rw [utf8_cons, List.flatMap_cons, List.length_append, List.length_append]
      exact Nat.add_le_add (length_backChar c).1 ih
  induction text with
  | nil => exact iff_of_true rfl fun c hc => absurd hc List.not_mem_nil
  | cons c text ih =>
    rw [List.forall_mem_cons, List.flatMap_cons, utf8_cons]
    by_cases hc : CodePoint c
    · refine iff_of_false (fun heq => ?_) fun h => h.1 hc
      have hlen := congrArg List.length heq
      rw [List.length_append, List.length_append] at hlen
      exact absurd hlen (Nat.ne_of_gt (Nat.add_lt_add_of_lt_of_le ((length_backChar c).2 hc) (hle text)))
    · rw [backChar, if_neg hc, List.append_cancel_left_eq]
      exact ih.trans (and_iff_right hc).symm

/-- **When an escaped text comes back** as a token: exactly when no character is escaped as a code point. -/
theorem grnTextUnescTok_esc_iff (text : List Char) (rest : List UInt8) :
    grnTextUnescTok (grnTextEsc (utf8 text) ++ rest) = ⟨utf8 text, ⟨.string, false⟩, rest⟩ ↔
      ∀ c ∈ text, ¬ CodePoint c := by
  rw [grnTextUnescTok_esc, Token.mk.injEq, ← flatMap_backChar_iff]
  exact and_iff_left ⟨rfl, rfl⟩

end Groonga.Command
