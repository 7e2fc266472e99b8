import Groonga.Str
import Mathlib

/-!
# The characters of a text

The loops over a text go from character to character until `grn_charlen` is 0. In a valid text
these are its characters up to the first NUL.
-/

namespace Groonga

/-- The characters that a loop over `grn_charlen` visits. -/
def charactersAux : ℕ → List UInt8 → List (List UInt8)
  | 0, _ => []
  | fuel + 1, str =>
    let len := grnStrCharlenUtf8 str
    if len = 0 then [] else str.take len :: charactersAux fuel (str.drop len)

/-- The characters of a text. -/
def characters (str : List UInt8) : List (List UInt8) := charactersAux str.length str

/-- A text in UTF-8. -/
def utf8 (text : List Char) : List UInt8 := text.flatMap String.utf8EncodeChar

/-- What the loops see of a text. -/
def beforeNul (text : List Char) : List Char := text.takeWhile (· ≠ '\x00')

@[simp]
theorem utf8_cons (c : Char) (text : List Char) : utf8 (c :: text) = String.utf8EncodeChar c ++ utf8 text :=
  List.flatMap_cons

theorem utf8_append (text text' : List Char) : utf8 (text ++ text') = utf8 text ++ utf8 text' :=
  List.flatMap_append

/-- Enough fuel. -/
theorem charactersAux_eq {fuel fuel' : ℕ} {str : List UInt8} (h : str.length ≤ fuel) (h' : str.length ≤ fuel') :
    charactersAux fuel str = charactersAux fuel' str := by
  induction fuel generalizing fuel' str with
  | zero =>
    obtain rfl := List.length_eq_zero_iff.mp (Nat.le_zero.mp h)
    cases fuel' with
    | zero => rfl
    | succ fuel' => rfl
  | succ fuel ih =>
    cases fuel' with
    | zero =>
      obtain rfl := List.length_eq_zero_iff.mp (Nat.le_zero.mp h')
      rfl
    | succ fuel' =>
      rw [charactersAux, charactersAux]
      by_cases hzero : grnStrCharlenUtf8 str = 0
      · rw [if_pos hzero, if_pos hzero]
      · rw [if_neg hzero, if_neg hzero, ih]
        · rw [List.length_drop]
          omega
        · rw [List.length_drop]
          omega

/-- The characters of a text that starts with one. -/
theorem characters_of_charlen {str : List UInt8} (hne : grnStrCharlenUtf8 str ≠ 0) :
    characters str = str.take (grnStrCharlenUtf8 str) :: characters (str.drop (grnStrCharlenUtf8 str)) := by
  cases str with
  | nil => exact absurd rfl hne
  | cons c rest =>
    rw [characters, List.length_cons, charactersAux, if_neg hne]
    refine congrArg (List.cons _) (charactersAux_eq ?_ (Nat.le_refl _))
    rw [List.length_drop, List.length_cons]
    omega

theorem characters_of_charlen_zero {str : List UInt8} (hzero : grnStrCharlenUtf8 str = 0) : characters str = [] := by
  rw [characters]
  cases str with
  | nil => rfl
  | cons c rest => rw [List.length_cons, charactersAux, if_pos hzero]

/-- The characters are bytes of the text. -/
theorem length_characters_le (str : List UInt8) : (characters str).length ≤ str.length := by
  suffices h : ∀ fuel str, (charactersAux fuel str).length ≤ fuel from h _ _
  intro fuel
  induction fuel with
  | zero => exact fun _ => Nat.le_refl 0
  | succ fuel ih =>
    intro str
    rw [charactersAux]
    split_ifs
    · exact Nat.zero_le _
    · exact Nat.succ_le_succ (ih _)

/-- Characters are not empty. -/
theorem ne_nil_of_mem_characters {str c : List UInt8} (hc : c ∈ characters str) : c ≠ [] := by
  suffices h : ∀ fuel str, c ∈ charactersAux fuel str → c ≠ [] from h _ _ hc
  intro fuel
  induction fuel with
  | zero => exact fun _ h => absurd h List.not_mem_nil
  | succ fuel ih =>
    intro str h
    rw [charactersAux] at h
    split_ifs at h with hzero
    · exact absurd h List.not_mem_nil
    · rcases List.mem_cons.mp h with rfl | h
      · have hle := grnStrCharlenUtf8_le str
        refine List.ne_nil_of_length_pos ?_
        rw [List.length_take]
        omega
      · exact ih _ h

/-! ## Valid texts -/

theorem charlen_utf8EncodeChar {c : Char} (hc : c ≠ '\x00') (rest : List UInt8) :
    grnStrCharlenUtf8 (String.utf8EncodeChar c ++ rest) = (String.utf8EncodeChar c).length := by
  obtain ⟨first, others, heq, hchar⟩ := isCharacter_utf8EncodeChar c
  have hne : c.toNat ≠ 0 := fun hzero => hc (Char.ext (UInt32.toNat_inj.mp hzero))
  rw [heq, List.cons_append, hchar.charlen hne, List.length_cons]

theorem utf8EncodeChar_nul : String.utf8EncodeChar '\x00' = [0] := by decide

theorem charlen_nul (rest : List UInt8) : grnStrCharlenUtf8 (String.utf8EncodeChar '\x00' ++ rest) = 0 := by
  rw [utf8EncodeChar_nul, List.singleton_append, grnStrCharlenUtf8, if_pos rfl]

/-- **The characters of a valid text** are those before the first NUL. -/
theorem characters_utf8 (text : List Char) :
    characters (utf8 text) = (beforeNul text).map String.utf8EncodeChar := by
  induction text with
  | nil => rfl
  | cons c text ih =>
    rw [utf8_cons, beforeNul]
    by_cases hc : c = '\x00'
    · subst hc
      rw [characters_of_charlen_zero (charlen_nul _), List.takeWhile_cons_of_neg (by decide)]
      rfl
    · have hlen := charlen_utf8EncodeChar hc (utf8 text)
      have hpos := List.length_pos_iff.mpr (String.utf8EncodeChar_ne_nil (c := c))
      rw [characters_of_charlen (by omega), hlen, List.take_left, List.drop_left, ih,
        List.takeWhile_cons_of_pos (by simp [hc])]
      rfl

/-- Different characters have different bytes. -/
theorem utf8EncodeChar_injective : Function.Injective String.utf8EncodeChar := by
  intro c d heq
  have hbytes : [c].utf8Encode = [d].utf8Encode := by
    rw [List.utf8Encode_singleton, List.utf8Encode_singleton, heq]
  have hdecode := congrArg (fun b => ByteArray.utf8DecodeChar? b 0) hbytes
  simp only [List.utf8DecodeChar?_utf8Encode_singleton, Option.some.injEq] at hdecode
  exact hdecode

/-! ## The order of texts -/

variable {c d : Char} {l text : List Char}

/-- The first bytes of characters of one, two, three and four bytes. -/
theorem range_of_leadingOnes : ∀ x < 256, (leadingOnes (UInt8.ofNat x) = 2 → 0xc0 ≤ x ∧ x < 0xe0) ∧
    (leadingOnes (UInt8.ofNat x) = 3 → 0xe0 ≤ x ∧ x < 0xf0) ∧ (leadingOnes (UInt8.ofNat x) = 4 → 0xf0 ≤ x) := by
  decide +kernel

/-- **The first byte tells the length**, and longer characters have larger ones. -/
theorem length_le_of_first_le {first first' : UInt8} {others others' : List UInt8}
    (hc : String.utf8EncodeChar c = first :: others) (hd : String.utf8EncodeChar d = first' :: others')
    (hle : first ≤ first') : others.length ≤ others'.length := by
  have hrange : ∀ {e : Char} {b : UInt8} {bs : List UInt8}, String.utf8EncodeChar e = b :: bs →
      (bs.length = 0 ∧ b.toNat < 0x80) ∨ (bs.length = 1 ∧ 0xc0 ≤ b.toNat ∧ b.toNat < 0xe0) ∨
        (bs.length = 2 ∧ 0xe0 ≤ b.toNat ∧ b.toNat < 0xf0) ∨ (bs.length = 3 ∧ 0xf0 ≤ b.toNat) := by
    intro e b bs he
    obtain ⟨b', bs', heq, hchar⟩ := isCharacter_utf8EncodeChar e
    obtain ⟨rfl, rfl⟩ := List.cons.inj (he.symm.trans heq)
    have hones := range_of_leadingOnes b.toNat (UInt8.toNat_lt b)
    rw [UInt8.ofNat_toNat] at hones
    rcases hchar.cases with ⟨hlt, hfirst, rfl⟩ | ⟨-, -, hlead, hmin, hmax⟩
    · refine .inl ⟨rfl, ?_⟩
      rw [hfirst, UInt8.toNat_ofNat']
      omega
    · rw [hlead] at hones
      omega
  have hle' : first.toNat ≤ first'.toNat := hle
  have hcr := hrange hc
  have hdr := hrange hd
  omega

/-- Texts with equal bytes in front. -/
theorem append_lt_append_iff (bytes x y : List UInt8) : bytes ++ x < bytes ++ y ↔ x < y := by
  induction bytes with
  | nil => rfl
  | cons b bytes ih => rw [List.cons_append, List.cons_append, List.cons_lt_cons_self, ih]

/-- **The smaller text** does not have the longer character where they differ. -/
theorem length_le_of_utf8_lt (h : utf8 (c :: l) < utf8 (d :: text)) :
    (String.utf8EncodeChar c).length ≤ (String.utf8EncodeChar d).length := by
  obtain ⟨first, others, hc, -⟩ := isCharacter_utf8EncodeChar c
  obtain ⟨first', others', hd, -⟩ := isCharacter_utf8EncodeChar d
  rw [utf8_cons, utf8_cons, hc, hd, List.cons_append, List.cons_append, List.cons_lt_cons_iff] at h
  rw [hc, hd, List.length_cons, List.length_cons]
  refine Nat.succ_le_succ (length_le_of_first_le hc hd ?_)
  rcases h with hlt | ⟨rfl, -⟩
  · exact UInt8.le_of_lt hlt
  · exact UInt8.le_refl _

/-- **A text that begins with the bytes of another one** begins with its characters. -/
theorem prefix_of_utf8_prefix (h : utf8 l <+: utf8 text) : l <+: text := by
  induction l generalizing text with
  | nil => exact List.nil_prefix
  | cons c l ih =>
    cases text with
    | nil =>
      have hnil := List.prefix_nil.mp h
      rw [utf8_cons, List.append_eq_nil_iff] at hnil
      exact absurd hnil.1 String.utf8EncodeChar_ne_nil
    | cons d text =>
      obtain ⟨first, others, hc, -⟩ := isCharacter_utf8EncodeChar c
      obtain ⟨first', others', hd, -⟩ := isCharacter_utf8EncodeChar d
      obtain ⟨rest, hrest⟩ := h
      rw [utf8_cons, utf8_cons, List.append_assoc] at hrest
      have hfirst : first = first' := by
        rw [hc, hd] at hrest
        exact (List.cons.inj hrest).1
      have hlength : (String.utf8EncodeChar c).length = (String.utf8EncodeChar d).length := by
        have hle := length_le_of_first_le hc hd (hfirst ▸ UInt8.le_refl _)
        have hge := length_le_of_first_le hd hc (hfirst ▸ UInt8.le_refl _)
        rw [hc, hd, List.length_cons, List.length_cons, Nat.le_antisymm hle hge]
      obtain ⟨hchar, htail⟩ := List.append_inj hrest hlength
      obtain rfl := utf8EncodeChar_injective hchar
      exact List.prefix_cons_inj c |>.mpr (ih ⟨rest, htail⟩)

theorem utf8_injective : Function.Injective utf8 := by
  intro l text h
  have hle := prefix_of_utf8_prefix (h ▸ List.prefix_rfl : utf8 l <+: utf8 text)
  have hge := prefix_of_utf8_prefix (h ▸ List.prefix_rfl : utf8 text <+: utf8 l)
  exact hle.eq_of_length (Nat.le_antisymm hle.length_le hge.length_le)

end Groonga
