import Groonga.Lib.JsonText
import Groonga.Str

/-!
# Texts as JSON strings

`grn_text_esc` writes a text as a JSON string. For every text of Unicode characters, NUL
included, what it writes is a valid string, and the string denotes the text.
-/

namespace Groonga.Load

open Lib.JsonText

/-! ## Writing -/

/-- The digits of `grn_itoh`. -/
def hexTable : List UInt8 :=
  [0x30, 0x31, 0x32, 0x33, 0x34, 0x35, 0x36, 0x37, 0x38, 0x39, 0x41, 0x42, 0x43, 0x44, 0x45, 0x46]

/-- `grn_itoh`. -/
def grnItoh (i len : ℕ) : List UInt8 :=
  (List.range len).reverse.map fun k => hexTable.getD (i >>> (4 * k) &&& 0xf) 0

/-- A character of one byte in `grn_text_esc`. -/
def escapeByte (c : UInt8) : List UInt8 :=
  if c = 0x22 then [0x5c, 0x22]
  else if c = 0x5c then [0x5c, 0x5c]
  else if c = 0x08 then [0x5c, 0x62]
  else if c = 0x0c then [0x5c, 0x66]
  else if c = 0x0a then [0x5c, 0x6e]
  else if c = 0x0d then [0x5c, 0x72]
  else if c = 0x09 then [0x5c, 0x74]
  else if c < 0x20 ∨ c = 0x7f then [0x5c, 0x75] ++ grnItoh c.toNat 4
  else [c]

/-- A character of several bytes in `grn_text_esc`. -/
def escapeBytes (bytes : List UInt8) : List UInt8 :=
  if bytes = [0xe2, 0x80, 0xa8] then [0x5c, 0x75, 0x32, 0x30, 0x32, 0x38]
  else if bytes = [0xe2, 0x80, 0xa9] then [0x5c, 0x75, 0x32, 0x30, 0x32, 0x39]
  else bytes

/-- The loop of `grn_text_esc`. -/
def textEscLoop : ℕ → List UInt8 → List UInt8
  | 0, _ => []
  | _ + 1, [] => []
  | fuel + 1, c :: s =>
    if grnStrCharlenUtf8 (c :: s) = 0 then
      [0x5c, 0x75] ++ grnItoh c.toNat 4 ++ textEscLoop fuel s
    else if grnStrCharlenUtf8 (c :: s) = 1 then escapeByte c ++ textEscLoop fuel s
    else
      escapeBytes ((c :: s).take (grnStrCharlenUtf8 (c :: s))) ++
        textEscLoop fuel ((c :: s).drop (grnStrCharlenUtf8 (c :: s)))

/-- `grn_text_esc`. -/
def grnTextEsc (s : List UInt8) : List UInt8 := [0x22] ++ textEscLoop s.length s ++ [0x22]

/-! ## Reading back -/

/-- The bytes are a way to write a character. -/
def Writes (text bytes : List UInt8) : Prop :=
  ∃ ch : StringChar, ch.chars.flatten = text ∧ ch.decode = bytes

/-- The digits of a character of ASCII. -/
def asciiHex (x : Fin 128) : Hex4 :=
  ⟨Hex.zero, Hex.zero, ⟨⟨x / 16, by omega⟩, true⟩, ⟨⟨x % 16, by omega⟩, true⟩⟩

theorem value_asciiHex (x : Fin 128) : (asciiHex x).value = x := by
  simp only [asciiHex, Hex4.value, Hex.zero]
  omega

/-- A character of ASCII as an escape with its code point. -/
theorem writes_unicode {x : ℕ} (hx : x < 128) :
    Writes ([0x5c, 0x75] ++ grnItoh x 4) [UInt8.ofNat x] := by
  have hdigits : ∀ x : Fin 128, (asciiHex x).chars.flatten = [0x5c, 0x75] ++ grnItoh x 4 := by
    decide +kernel
  have hdecode : ∀ x : Fin 128, String.utf8EncodeChar (Char.ofNat x) = [UInt8.ofNat x] := by
    decide +kernel
  have hvalue := value_asciiHex ⟨x, hx⟩
  refine ⟨.unicode (asciiHex ⟨x, hx⟩) ?_ ?_, hdigits ⟨x, hx⟩, ?_⟩
  · rw [Hex4.IsHigh, hvalue]
    simp only
    omega
  · rw [Hex4.IsLow, hvalue]
    simp only
    omega
  · rw [StringChar.decode, hvalue]
    exact hdecode ⟨x, hx⟩

theorem writes_escape (e : Escape) : Writes [0x5c, e.byte] [e.decode] := ⟨.escape e, rfl, rfl⟩

/-- The two separators of lines and paragraphs. -/
theorem writes_separator (last : Hex) (hlast : last = ⟨8, true⟩ ∨ last = ⟨9, true⟩) :
    Writes [0x5c, 0x75, 0x32, 0x30, 0x32, last.byte] [0xe2, 0x80, 0xa0 + UInt8.ofNat last.value] := by
  rcases hlast with rfl | rfl
  · exact ⟨.unicode ⟨⟨2, true⟩, ⟨0, true⟩, ⟨2, true⟩, ⟨8, true⟩⟩ (by unfold Hex4.IsHigh; decide)
      (by unfold Hex4.IsLow; decide), rfl, by decide⟩
  · exact ⟨.unicode ⟨⟨2, true⟩, ⟨0, true⟩, ⟨2, true⟩, ⟨9, true⟩⟩ (by unfold Hex4.IsHigh; decide)
      (by unfold Hex4.IsLow; decide), rfl, by decide⟩

/-- Every character of ASCII but NUL. -/
theorem writes_escapeByte {c : Char} (hc : c.toNat < 128)
    (hbytes : String.utf8EncodeChar c = [UInt8.ofNat c.toNat]) :
    Writes (escapeByte (UInt8.ofNat c.toNat)) (String.utf8EncodeChar c) := by
  have hinj : ∀ x < 128, (UInt8.ofNat x).toNat = x ∧ (¬ UInt8.ofNat x < 0x20 → 0x20 ≤ x) := by
    decide +kernel
  obtain ⟨htoNat, hlow⟩ := hinj _ hc
  rw [hbytes, escapeByte]
  split_ifs with h1 h2 h3 h4 h5 h6 h7 h8
  · rw [h1]; exact writes_escape .quote
  · rw [h2]; exact writes_escape .backslash
  · rw [h3]; exact writes_escape .backspace
  · rw [h4]; exact writes_escape .formFeed
  · rw [h5]; exact writes_escape .lineFeed
  · rw [h6]; exact writes_escape .carriageReturn
  · rw [h7]; exact writes_escape .tab
  · rw [htoNat]
    exact writes_unicode hc
  · rw [not_or] at h8
    refine ⟨.plain c ⟨hlow h8.1, ?_, ?_⟩, by simpa [StringChar.chars] using hbytes, hbytes⟩
    · rintro rfl
      exact h1 rfl
    · rintro rfl
      exact h2 rfl

/-- Every character of several bytes. -/
theorem writes_escapeBytes {c : Char} (hc : 0x80 ≤ c.toNat) :
    Writes (escapeBytes (String.utf8EncodeChar c)) (String.utf8EncodeChar c) := by
  rw [escapeBytes]
  split_ifs with h1 h2
  · rw [h1]
    exact writes_separator ⟨8, true⟩ (.inl rfl)
  · rw [h2]
    exact writes_separator ⟨9, true⟩ (.inr rfl)
  · refine ⟨.plain c ⟨by omega, ?_, ?_⟩, by simp [StringChar.chars], rfl⟩
    · rintro rfl
      exact absurd hc (by decide)
    · rintro rfl
      exact absurd hc (by decide)

/-- One character in front of others. -/
theorem textEscLoop_cons (c : Char) (rest : List UInt8) (fuel : ℕ) :
    ∃ text, Writes text (String.utf8EncodeChar c) ∧
      textEscLoop (fuel + 1) (String.utf8EncodeChar c ++ rest) = text ++ textEscLoop fuel rest := by
  obtain ⟨first, others, hbytes, hchar⟩ := isCharacter_utf8EncodeChar c
  by_cases hzero : c.toNat = 0
  · -- NUL has no length
    rcases hchar.cases with ⟨hlt, rfl, rfl⟩ | ⟨hhigh, -⟩
    · refine ⟨[0x5c, 0x75] ++ grnItoh 0 4, ?_, ?_⟩
      · rw [hbytes, hzero]
        exact writes_unicode (by decide)
      · rw [hbytes, hzero]
        rfl
    · omega
  · have hlen := hchar.charlen hzero rest
    rw [hbytes, List.cons_append, textEscLoop, hlen, if_neg (Nat.succ_ne_zero _)]
    rcases hchar.cases with ⟨hlt, rfl, rfl⟩ | ⟨hhigh, -, -, hmin, -⟩
    · refine ⟨_, ?_, by rw [List.length_nil, if_pos rfl]; rfl⟩
      rw [← hbytes]
      exact writes_escapeByte hlt hbytes
    · refine ⟨escapeBytes (String.utf8EncodeChar c), ?_, ?_⟩
      · rw [← hbytes]
        exact writes_escapeBytes hhigh
      · rw [if_neg (by omega), hbytes]
        simp

/-- **What `grn_text_esc` writes denotes the text.** -/
theorem grnTextEsc_denotes (s : List Char) :
    ∃ t : List StringChar, grnTextEsc (s.flatMap String.utf8EncodeChar) = (stringChars t).flatten ∧
      decodeString t = s.flatMap String.utf8EncodeChar := by
  have hloop : ∀ (s : List Char) (fuel : ℕ), (s.flatMap String.utf8EncodeChar).length ≤ fuel →
      ∃ t : List StringChar, textEscLoop fuel (s.flatMap String.utf8EncodeChar) =
        (t.flatMap StringChar.chars).flatten ∧ decodeString t = s.flatMap String.utf8EncodeChar := by
    intro s
    induction s with
    | nil =>
      intro fuel _
      exact ⟨[], by cases fuel <;> rfl, rfl⟩
    | cons c s ih =>
      intro fuel hfuel
      have hpos : 0 < (String.utf8EncodeChar c).length :=
        List.length_pos_iff.mpr String.utf8EncodeChar_ne_nil
      rw [List.flatMap_cons, List.length_append] at hfuel
      obtain ⟨fuel, rfl⟩ : ∃ n, fuel = n + 1 := ⟨fuel - 1, by omega⟩
      obtain ⟨text, ⟨ch, rfl, hdecode⟩, heq⟩ := textEscLoop_cons c (s.flatMap String.utf8EncodeChar) fuel
      obtain ⟨t, htext, hrest⟩ := ih fuel (by omega)
      refine ⟨ch :: t, ?_, ?_⟩
      · rw [List.flatMap_cons, heq, htext, List.flatMap_cons, List.flatten_append]
      · rw [decodeString, List.flatMap_cons, hdecode, List.flatMap_cons, ← hrest, decodeString]
  obtain ⟨t, htext, hdecode⟩ := hloop s _ (Nat.le_refl _)
  refine ⟨t, ?_, hdecode⟩
  rw [grnTextEsc, htext, stringChars, List.flatten_append, List.flatten_append]
  rfl

end Groonga.Load
