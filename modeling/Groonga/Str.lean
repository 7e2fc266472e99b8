import Mathlib

/-!
# Characters

The length of the first character of a text in UTF-8, as `grn_charlen` computes it. A text
is the bytes up to its end. The length is 0 at the end, at a NUL, and when the bytes are not
a character.
-/

namespace Groonga

/-- How many bits of a byte are 1 before the first 0, as `GRN_BIT_SCAN_REV` finds it. -/
def leadingOnes (c : UInt8) : ℕ := ((List.range 8).takeWhile fun i => c.toNat.testBit (7 - i)).length

/-- The byte is not the first one of a character: `(c & 0xc0) == 0x80`. -/
def isContinuation (c : UInt8) : Bool := c &&& 0xc0 == 0x80

/-- `grn_str_charlen_utf8`. -/
def grnStrCharlenUtf8 : List UInt8 → ℕ
  | [] => 0
  | c :: str =>
    if c = 0 then 0
    else if 0x80 ≤ c then
      let len := leadingOnes c
      -- the first byte is invalid
      if len < 2 ∨ 5 ≤ len then 0
      -- incomplete character
      else if str.length + 1 < len then 0
      else if (str.take (len - 1)).all isContinuation then len
      else 0
    else 1

/-- A character is not longer than the text. -/
theorem grnStrCharlenUtf8_le (str : List UInt8) : grnStrCharlenUtf8 str ≤ str.length := by
  cases str with
  | nil => simp [grnStrCharlenUtf8]
  | cons c str =>
    simp only [grnStrCharlenUtf8, List.length_cons]
    split_ifs <;> omega

/-! ## Characters of UTF-8 -/

/-- The bytes of a character: the first one tells how many there are, if it is not in ASCII,
and the others continue it. -/
structure IsCharacter (v : ℕ) (first : UInt8) (others : List UInt8) : Prop where
  not_continuation : isContinuation first = false
  continuation : ∀ b ∈ others, isContinuation b = true
  cases : (v < 0x80 ∧ first = UInt8.ofNat v ∧ others = []) ∨
    (0x80 ≤ v ∧ 0x80 ≤ first ∧ leadingOnes first = others.length + 1 ∧ 1 ≤ others.length ∧
      others.length ≤ 3)

/-- A byte that continues a character. -/
theorem isContinuation_ofNat : ∀ x < 64, isContinuation (UInt8.ofNat (x + 0x80)) = true := by
  decide

/-- First bytes in ASCII, and of characters of two, three and four bytes. -/
theorem isContinuation_ascii : ∀ x < 128, isContinuation (UInt8.ofNat x) = false := by
  decide

theorem first_of_two : ∀ x < 32, isContinuation (UInt8.ofNat (x + 0xc0)) = false ∧
    0x80 ≤ UInt8.ofNat (x + 0xc0) ∧ leadingOnes (UInt8.ofNat (x + 0xc0)) = 2 := by
  decide

theorem first_of_three : ∀ x < 16, isContinuation (UInt8.ofNat (x + 0xe0)) = false ∧
    0x80 ≤ UInt8.ofNat (x + 0xe0) ∧ leadingOnes (UInt8.ofNat (x + 0xe0)) = 3 := by
  decide

theorem first_of_four : ∀ x < 8, isContinuation (UInt8.ofNat (x + 0xf0)) = false ∧
    0x80 ≤ UInt8.ofNat (x + 0xf0) ∧ leadingOnes (UInt8.ofNat (x + 0xf0)) = 4 := by
  decide

theorem isCharacter_utf8EncodeChar (c : Char) :
    ∃ first others, String.utf8EncodeChar c = first :: others ∧ IsCharacter c.toNat first others := by
  have hmod : ∀ x, isContinuation (UInt8.ofNat (x % 64 + 0x80)) = true := fun x =>
    isContinuation_ofNat _ (Nat.mod_lt _ (by decide))
  show ∃ first others, String.utf8EncodeChar c = first :: others ∧
    IsCharacter c.val.toNat first others
  unfold String.utf8EncodeChar
  generalize c.val.toNat = v
  simp only
  split_ifs with h1 h2 h3
  · exact ⟨_, _, rfl, isContinuation_ascii v (by omega), by simp, .inl ⟨by omega, rfl, rfl⟩⟩
  · obtain ⟨hnot, hlow, hones⟩ := first_of_two (v / 64 % 32) (Nat.mod_lt _ (by decide))
    refine ⟨_, _, rfl, hnot, ?_, .inr ⟨by omega, hlow, hones, by simp, by simp⟩⟩
    simp only [List.forall_mem_cons, hmod, List.not_mem_nil, false_implies, implies_true, and_self]
  · obtain ⟨hnot, hlow, hones⟩ := first_of_three (v / 4096 % 16) (Nat.mod_lt _ (by decide))
    refine ⟨_, _, rfl, hnot, ?_, .inr ⟨by omega, hlow, hones, by simp, by simp⟩⟩
    simp only [List.forall_mem_cons, hmod, List.not_mem_nil, false_implies, implies_true, and_self]
  · obtain ⟨hnot, hlow, hones⟩ := first_of_four (v / 262144 % 8) (Nat.mod_lt _ (by decide))
    refine ⟨_, _, rfl, hnot, ?_, .inr ⟨by omega, hlow, hones, by simp, by simp⟩⟩
    simp only [List.forall_mem_cons, hmod, List.not_mem_nil, false_implies, implies_true, and_self]

theorem ofNat_of_ascii : ∀ x < 128, (x ≠ 0 → UInt8.ofNat x ≠ 0) ∧ ¬ 0x80 ≤ UInt8.ofNat x := by
  decide

theorem ne_zero_of_high {c : UInt8} (h : 0x80 ≤ c) : c ≠ 0 := by
  rintro rfl
  exact absurd h (by decide)

/-- **The length of a character** other than NUL, whatever follows. -/
theorem IsCharacter.charlen {v : ℕ} {first : UInt8} {others : List UInt8}
    (h : IsCharacter v first others) (hv : v ≠ 0) (rest : List UInt8) :
    grnStrCharlenUtf8 (first :: (others ++ rest)) = others.length + 1 := by
  rcases h.cases with ⟨hlt, rfl, rfl⟩ | ⟨-, hhigh, hones, hmin, hmax⟩
  · obtain ⟨hne, hlow⟩ := ofNat_of_ascii v hlt
    simp [grnStrCharlenUtf8, hne hv, hlow]
  · have hall : ((others ++ rest).take others.length).all isContinuation = true := by
      rw [List.take_left, List.all_eq_true]
      exact h.continuation
    simp only [grnStrCharlenUtf8, ne_zero_of_high hhigh, hhigh, hones, if_true, if_false,
      Nat.add_sub_cancel, hall, List.length_append]
    rw [if_neg (by omega), if_neg (by omega)]

/-- A byte that continues a character is none. -/
theorem charlen_of_isContinuation {c : UInt8} (h : isContinuation c = true) (rest : List UInt8) :
    grnStrCharlenUtf8 (c :: rest) = 0 := by
  have hones : ∀ x < 256, isContinuation (UInt8.ofNat x) = true →
      0x80 ≤ UInt8.ofNat x ∧ leadingOnes (UInt8.ofNat x) = 1 := by decide +kernel
  obtain ⟨hhigh, hone⟩ := hones c.toNat (UInt8.toNat_lt c) (by rwa [UInt8.ofNat_toNat])
  rw [UInt8.ofNat_toNat] at hhigh hone
  simp [grnStrCharlenUtf8, ne_zero_of_high hhigh, hhigh, hone]

/-- A character that is cut off is none. -/
theorem IsCharacter.charlen_cut {v : ℕ} {first : UInt8} {others : List UInt8}
    (h : IsCharacter v first others) {k : ℕ} (hk : k < others.length) :
    grnStrCharlenUtf8 (first :: others.take k) = 0 := by
  rcases h.cases with ⟨-, -, rfl⟩ | ⟨-, hhigh, hones, hmin, hmax⟩
  · simp at hk
  · have hcut : (others.take k).length + 1 < others.length + 1 := by
      rw [List.length_take]
      omega
    simp only [grnStrCharlenUtf8, ne_zero_of_high hhigh, hhigh, hones, if_true, hcut, ite_self]

end Groonga
