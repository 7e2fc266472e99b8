import Mathlib

/-!
# The order of floats in their bits

A binary float has a sign, an exponent and a fraction. Without the sign, the bits count the floats
from zero to infinity in their order, and what comes behind infinity is no number. With the bits of
a negative float complemented and those of another one moved above them, numbers are in the order
of these bits, and the two zeros are neighbours.
-/

namespace Groonga.Lib

/-- A format of binary floats. -/
structure FloatFormat where
  expBits : ℕ
  fracBits : ℕ

namespace FloatFormat

variable (f : FloatFormat)

/-- Where the sign is. -/
def signBit : ℕ := f.expBits + f.fracBits

/-- The float is negative, or the negative zero. -/
def IsNegative (bits : ℕ) : Prop := 2 ^ f.signBit ≤ bits

instance (bits : ℕ) : Decidable (f.IsNegative bits) := inferInstanceAs (Decidable (_ ≤ _))

/-- The bits without the sign. -/
def rest (bits : ℕ) : ℕ := bits % 2 ^ f.signBit

/-- The bits of infinity. -/
def infinity : ℕ := (2 ^ f.expBits - 1) * 2 ^ f.fracBits

/-- The bits are those of a number or of an infinity. -/
def IsNumber (bits : ℕ) : Prop := f.rest bits ≤ f.infinity

instance (bits : ℕ) : Decidable (f.IsNumber bits) := inferInstanceAs (Decidable (_ ≤ _))

/-- The number that bits without a sign stand for, in units of the smallest one. -/
def units (u : ℕ) : ℕ :=
  if u / 2 ^ f.fracBits = 0 then u
  else (2 ^ f.fracBits + u % 2 ^ f.fracBits) * 2 ^ (u / 2 ^ f.fracBits - 1)

/-- The smallest positive number. -/
noncomputable def unit : ℝ := 2 ^ (2 - 2 ^ (f.expBits - 1) - f.fracBits : ℤ)

/-- The number that bits without a sign stand for. -/
noncomputable def magnitude (u : ℕ) : EReal :=
  if u = f.infinity then ⊤ else ((f.units u * f.unit : ℝ) : EReal)

/-- The number that bits stand for. -/
noncomputable def value (bits : ℕ) : EReal :=
  if f.IsNegative bits then -f.magnitude (f.rest bits) else f.magnitude (f.rest bits)

/-- The bits, negative ones complemented and other ones moved above them. -/
def orderBits (bits : ℕ) : ℕ :=
  if f.IsNegative bits then 2 ^ f.signBit - 1 - f.rest bits else 2 ^ f.signBit + f.rest bits

variable {f}


theorem orderBits_lt (bits : ℕ) : f.orderBits bits < 2 ^ (f.signBit + 1) := by
  have hrest : f.rest bits < 2 ^ f.signBit := Nat.mod_lt _ (Nat.two_pow_pos _)
  rw [orderBits, Nat.pow_succ]
  split <;> omega

variable {u v : ℕ}

theorem units_zero : f.units 0 = 0 := by simp [units]

/-- The next bits stand for a greater number. -/
theorem units_lt_succ (u : ℕ) : f.units u < f.units (u + 1) := by
  have hpos := Nat.two_pow_pos f.fracBits
  have hmod := Nat.mod_lt u hpos
  have hsplit := Nat.div_add_mod u (2 ^ f.fracBits)
  generalize hE : u / 2 ^ f.fracBits = E at hsplit
  generalize hF : u % 2 ^ f.fracBits = F at hsplit hmod
  generalize hP : 2 ^ f.fracBits = P at *
  rcases Nat.lt_or_ge (F + 1) P with hlt | hge
  · have hsucc : u + 1 = P * E + (F + 1) := by omega
    have hdiv : (u + 1) / P = E := by
      rw [hsucc, Nat.mul_add_div hpos, Nat.div_eq_of_lt hlt, Nat.add_zero]
    have hmod' : (u + 1) % P = F + 1 := by
      rw [hsucc, Nat.mul_add_mod, Nat.mod_eq_of_lt hlt]
    rw [units, units, hP, hdiv, hmod', hE, hF]
    split
    · exact Nat.lt_succ_self u
    · exact Nat.mul_lt_mul_of_pos_right (by omega) (Nat.two_pow_pos _)
  · -- the fraction overflows into the exponent
    have hsucc : u + 1 = P * (E + 1) + 0 := by
      rw [Nat.mul_succ]
      omega
    have hdiv : (u + 1) / P = E + 1 := by
      rw [hsucc, Nat.mul_add_div hpos, Nat.zero_div]
    have hmod' : (u + 1) % P = 0 := by rw [hsucc, Nat.add_zero, Nat.mul_mod_right]
    rw [units, units, hP, hdiv, hmod', hE, hF, if_neg (Nat.succ_ne_zero E), Nat.add_sub_cancel]
    split
    · next hzero =>
      subst hzero
      simp only [Nat.mul_zero, Nat.zero_add] at hsplit
      simp only [Nat.pow_zero, Nat.mul_one]
      omega
    · next hne =>
      obtain ⟨n, rfl⟩ := Nat.exists_eq_succ_of_ne_zero hne
      rw [Nat.succ_eq_add_one, Nat.add_sub_cancel, Nat.pow_succ, Nat.add_zero, Nat.mul_comm (2 ^ n),
        ← Nat.mul_assoc]
      exact Nat.mul_lt_mul_of_pos_right (by omega) (Nat.two_pow_pos _)

theorem strictMono_units : StrictMono f.units := strictMono_nat_of_lt_succ units_lt_succ

theorem unit_pos : 0 < f.unit := zpow_pos (by norm_num) _

/-- **The bits without a sign are in the order of the numbers.** -/
theorem magnitude_lt (huv : u < v) (hv : v ≤ f.infinity) : f.magnitude u < f.magnitude v := by
  rw [magnitude, magnitude, if_neg (by omega)]
  split
  · exact EReal.coe_lt_top _
  · rw [EReal.coe_lt_coe_iff]
    exact mul_lt_mul_of_pos_right (Nat.cast_lt.mpr (strictMono_units huv)) unit_pos

theorem magnitude_lt_iff (hu : u ≤ f.infinity) (hv : v ≤ f.infinity) :
    f.magnitude u < f.magnitude v ↔ u < v := by
  refine ⟨fun h => ?_, fun h => magnitude_lt h hv⟩
  by_contra hle
  rcases Nat.lt_or_eq_of_le (Nat.le_of_not_lt hle) with hlt | heq
  · exact absurd (magnitude_lt hlt hu) (not_lt_of_gt h)
  · exact absurd h (heq ▸ lt_irrefl _)

variable {a b : ℕ}

/-- **Numbers are in the order of their bits**, and the negative zero is right before the other
one. -/
theorem orderBits_lt_iff (hexp : 0 < f.expBits) (ha : f.IsNumber a) (hb : f.IsNumber b) :
    f.orderBits a < f.orderBits b ↔ f.value a < f.value b ∨
      f.rest a = 0 ∧ f.rest b = 0 ∧ f.IsNegative a ∧ ¬f.IsNegative b := by
  have hpos : 0 < f.infinity :=
    Nat.mul_pos (Nat.sub_pos_of_lt (Nat.one_lt_two_pow hexp.ne')) (Nat.two_pow_pos _)
  have hzero : f.magnitude 0 = 0 := by
    rw [magnitude, if_neg hpos.ne, units_zero]
    simp
  have hnonneg : ∀ u ≤ f.infinity, 0 ≤ f.magnitude u := fun u hu => by
    rcases Nat.eq_zero_or_pos u with rfl | hu'
    · exact hzero.ge
    · exact hzero ▸ (magnitude_lt hu' hu).le
  have hra : f.rest a < 2 ^ f.signBit := Nat.mod_lt _ (Nat.two_pow_pos _)
  have hrb : f.rest b < 2 ^ f.signBit := Nat.mod_lt _ (Nat.two_pow_pos _)
  rw [orderBits, orderBits, value, value]
  by_cases hna : f.IsNegative a <;> by_cases hnb : f.IsNegative b
  · simp only [hna, hnb, if_true, not_true, and_false, or_false, EReal.neg_lt_neg_iff,
      magnitude_lt_iff hb ha]
    omega
  · simp only [hna, hnb, if_true, if_false, not_false_eq_true, and_true]
    refine iff_of_true (by omega) ?_
    rcases Nat.eq_zero_or_pos (f.rest a) with hza | hpa
    · rcases Nat.eq_zero_or_pos (f.rest b) with hzb | hpb
      · exact .inr ⟨hza, hzb⟩
      · left
        rw [hza, hzero, neg_zero]
        exact hzero ▸ magnitude_lt hpb hb
    · left
      have hneg : -f.magnitude (f.rest a) < 0 := by
        rw [EReal.neg_lt_comm, neg_zero]
        exact hzero ▸ magnitude_lt hpa ha
      exact hneg.trans_le (hnonneg _ hb)
  · simp only [hna, hnb, if_true, if_false, false_and, and_false, or_false]
    refine iff_of_false (by omega) (not_lt_of_ge ?_)
    have hneg : -f.magnitude (f.rest b) ≤ 0 := by
      rw [EReal.neg_le, neg_zero]
      exact hnonneg _ hb
    exact hneg.trans (hnonneg _ ha)
  · simp only [hna, hnb, if_false, false_and, and_false, or_false, magnitude_lt_iff ha hb]
    omega

end FloatFormat

end Groonga.Lib
