import Mathlib

/-!
# Spreading the bits of a word

The bits of a number are spread over the even places of a word twice as wide in stages: blocks of
bits with gaps of their own size between them are halved, until the blocks are single bits. The
same stages in the other order gather the bits again.
-/

namespace Groonga.Lib

/-- The word has the bits `y` in blocks of `s`, with gaps of `s` zeros between them. -/
def Spaced {w : ℕ} (s : ℕ) (x : BitVec w) (y : ℕ → Bool) : Prop :=
  ∀ i < w, x.getLsbD i = (decide (i % (2 * s) < s) && y (i / (2 * s) * s + i % (2 * s)))

/-- The mask that keeps the blocks of `s`. -/
def IsMask {w : ℕ} (s : ℕ) (m : BitVec w) : Prop :=
  ∀ i < w, m.getLsbD i = decide (i % (2 * s) < s)

instance {w : ℕ} (s : ℕ) (m : BitVec w) : Decidable (IsMask s m) :=
  inferInstanceAs (Decidable (∀ i < w, m.getLsbD i = decide (i % (2 * s) < s)))

section Places

variable {s : ℕ}

/-- A place in a block of `4 * s`, seen from the blocks of `2 * s`. -/
theorem place_div (a : ℕ) {r : ℕ} (hs : 0 < s) :
    (4 * s * a + r) / (2 * s) = 2 * a + r / (2 * s) := by
  have h : 4 * s * a + r = r + 2 * s * (2 * a) := by ring
  rw [h, Nat.add_mul_div_left _ _ (by omega), Nat.add_comm]

theorem place_mod (a r : ℕ) : (4 * s * a + r) % (2 * s) = r % (2 * s) := by
  have h : 4 * s * a + r = r + 2 * s * (2 * a) := by ring
  rw [h, Nat.add_mul_mod_self_left]

theorem place_div_four (a : ℕ) {r : ℕ} (hr : r < 4 * s) :
    (4 * s * a + r) / (2 * (2 * s)) = a := by
  rw [show 2 * (2 * s) = 4 * s by ring, Nat.mul_add_div (by omega), Nat.div_eq_of_lt hr,
    Nat.add_zero]

theorem place_mod_four (a : ℕ) {r : ℕ} (hr : r < 4 * s) :
    (4 * s * a + r) % (2 * (2 * s)) = r := by
  rw [show 2 * (2 * s) = 4 * s by ring, Nat.mul_add_mod, Nat.mod_eq_of_lt hr]

end Places

variable {w s : ℕ} {x m : BitVec w} {y : ℕ → Bool}

/-- Blocks of one bit are the bits at the even places. -/
theorem Spaced.one_bit (h : Spaced 1 x y) {i : ℕ} (hi : i < w) :
    x.getLsbD i = (decide (i % 2 = 0) && y (i / 2)) := by
  rw [h i hi]
  rcases Nat.mod_two_eq_zero_or_one i with heven | hodd
  · simp [heven]
  · simp [hodd]

/-- What a bit of a word in blocks of `2 * s` is. -/
theorem Spaced.bit_two_mul (h : Spaced (2 * s) x y) (a : ℕ) {r : ℕ} (hr : r < 4 * s)
    (hw : 4 * s * a + r < w) :
    x.getLsbD (4 * s * a + r) = (decide (r < 2 * s) && y (a * (2 * s) + r)) := by
  rw [h _ hw, place_div_four a hr, place_mod_four a hr]

/-- What a bit of a word in blocks of `s` is: in the first or in the second half. -/
theorem Spaced.bit (h : Spaced s x y) (hs : 0 < s) (a : ℕ) {r : ℕ} (hw : 4 * s * a + r < w) :
    x.getLsbD (4 * s * a + r) =
      (decide (r % (2 * s) < s) && y ((2 * a + r / (2 * s)) * s + r % (2 * s))) := by
  rw [h _ hw, place_div a hs, place_mod]

/-- The four quarters of a block of `4 * s`, as remainders by `2 * s`. -/
theorem quarter {r : ℕ} (hr : r < 4 * s) :
    (r < s ∧ r / (2 * s) = 0 ∧ r % (2 * s) = r) ∨
      (s ≤ r ∧ r < 2 * s ∧ r / (2 * s) = 0 ∧ r % (2 * s) = r) ∨
      (2 * s ≤ r ∧ r < 3 * s ∧ r / (2 * s) = 1 ∧ r % (2 * s) = r - 2 * s) ∨
      (3 * s ≤ r ∧ r / (2 * s) = 1 ∧ r % (2 * s) = r - 2 * s) := by
  rcases Nat.lt_or_ge r (2 * s) with hlt | hge
  · have hdiv : r / (2 * s) = 0 := Nat.div_eq_of_lt hlt
    have hmod : r % (2 * s) = r := Nat.mod_eq_of_lt hlt
    omega
  · have hmod : r % (2 * s) = r - 2 * s := by
      rw [Nat.mod_eq_sub_mod hge, Nat.mod_eq_of_lt (by omega)]
    have hdiv : r / (2 * s) = 1 := Nat.div_eq_of_lt_le (by omega) (by omega)
    omega

/-- **Spreading.** A stage halves the blocks. -/
theorem Spaced.spread (h : Spaced (2 * s) x y) (hs : 0 < s) (hm : IsMask s m) :
    Spaced s ((x ||| x <<< s) &&& m) y := by
  intro i hi
  obtain ⟨a, r, hr, rfl⟩ : ∃ a r, r < 4 * s ∧ i = 4 * s * a + r :=
    ⟨i / (4 * s), i % (4 * s), Nat.mod_lt _ (by omega), (Nat.div_add_mod _ _).symm⟩
  rw [BitVec.getLsbD_and, BitVec.getLsbD_or, BitVec.getLsbD_shiftLeft, hm _ hi,
    h.bit_two_mul a hr hi, place_mod, place_div a hs]
  rcases quarter hr with ⟨hlt, hdiv, hmod⟩ | ⟨hge, -, -, hmod⟩ | ⟨hge, hlt, hdiv, hmod⟩ |
    ⟨hge, -, hmod⟩
  · -- the bit stays where it is, what is shifted here is from the gap before
    have hshift : (!decide (4 * s * a + r < s) && x.getLsbD (4 * s * a + r - s)) = false := by
      cases a with
      | zero => simp [hlt]
      | succ a =>
        have hgap : 4 * s * (a + 1) + r - s = 4 * s * a + (3 * s + r) := by
          rw [Nat.mul_succ]
          omega
        rw [hgap, h.bit_two_mul a (by omega) (by omega)]
        simp [show ¬3 * s + r < 2 * s by omega]
    have hplace : (2 * a + 0) * s + r = a * (2 * s) + r := by ring
    rw [Bool.and_assoc, hshift, hmod, hdiv, hplace]
    simp [hlt, show r < 2 * s by omega, hi]
  · simp [hmod, show ¬r < s by omega]
  · have hback : 4 * s * a + r - s = 4 * s * a + (r - s) := by omega
    have hplace : (2 * a + 1) * s + (r - 2 * s) = a * (2 * s) + (r - s) := by
      have : s + (r - 2 * s) = r - s := by omega
      rw [Nat.add_mul, Nat.one_mul, Nat.add_assoc, this]
      ring
    rw [hback, h.bit_two_mul a (by omega) (by omega), hmod, hdiv, hplace]
    simp [show ¬r < 2 * s by omega, show r - s < 2 * s by omega, show r - 2 * s < s by omega, hi,
      show ¬4 * s * a + r < s by omega]
  · simp [hmod, show ¬r - 2 * s < s by omega]

/-- **Gathering.** A stage doubles the blocks. -/
theorem Spaced.gather (h : Spaced s x y) (hs : 0 < s) (hw : 4 * s ∣ w) (hm : IsMask (2 * s) m) :
    Spaced (2 * s) ((x ||| x >>> s) &&& m) y := by
  intro i hi
  obtain ⟨a, r, hr, rfl⟩ : ∃ a r, r < 4 * s ∧ i = 4 * s * a + r :=
    ⟨i / (4 * s), i % (4 * s), Nat.mod_lt _ (by omega), (Nat.div_add_mod _ _).symm⟩
  have hin : 4 * s * a + 4 * s ≤ w := by
    obtain ⟨b, rfl⟩ := hw
    have hab : a < b := by
      refine Nat.lt_of_mul_lt_mul_left (a := 4 * s) ?_
      omega
    calc 4 * s * a + 4 * s = 4 * s * (a + 1) := by ring
      _ ≤ 4 * s * b := Nat.mul_le_mul_left _ hab
  rw [BitVec.getLsbD_and, BitVec.getLsbD_or, BitVec.getLsbD_ushiftRight, hm _ hi, h.bit hs a hi,
    place_mod_four a hr, place_div_four a hr]
  rcases quarter hr with ⟨hlt, hdiv, hmod⟩ | ⟨hge, hlt, hdiv, hmod⟩ | ⟨hge, -⟩ | ⟨hge, -⟩
  · have hnext : s + (4 * s * a + r) = 4 * s * a + (s + r) := by omega
    have hnmod : (s + r) % (2 * s) = s + r := Nat.mod_eq_of_lt (by omega)
    have hplace : (2 * a + 0) * s + r = a * (2 * s) + r := by ring
    rw [hnext, h.bit hs a (by omega), hnmod, hmod, hdiv, hplace]
    simp [hlt, show r < 2 * s by omega]
  · have hnext : s + (4 * s * a + r) = 4 * s * a + (s + r) := by omega
    have hnmod : (s + r) % (2 * s) = r - s := by
      rw [Nat.mod_eq_sub_mod (by omega), Nat.mod_eq_of_lt (by omega)]
      omega
    have hndiv : (s + r) / (2 * s) = 1 := Nat.div_eq_of_lt_le (by omega) (by omega)
    have hplace : (2 * a + 1) * s + (r - s) = a * (2 * s) + r := by
      have : s + (r - s) = r := by omega
      rw [Nat.add_mul, Nat.one_mul, Nat.add_assoc, this]
      ring
    rw [hnext, h.bit hs a (by omega), hnmod, hndiv, hmod, hplace]
    simp [show ¬r < s by omega, hlt, show r - s < s by omega]
  · simp [show ¬r < 2 * s by omega]
  · simp [show ¬r < 2 * s by omega]

end Groonga.Lib
