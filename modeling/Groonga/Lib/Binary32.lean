import Mathlib

/-!
# Natural numbers as single precision floats

A single precision float is the number in its 32 bits: the sign, eight bits of exponent and 23
bits of fraction. A natural number becomes the nearest float, the even one of two that are as
near, and a float becomes the natural number that is left without its fraction. A number that is
24 bits and then zeros comes back.
-/

namespace Groonga.Lib.Binary32

/-- The number divided by `2 ^ s`, rounded to the nearest, and to the even one of two. -/
def shiftEven (n s : ℕ) : ℕ :=
  if 2 ^ s < 2 * (n % 2 ^ s) ∨ 2 ^ s = 2 * (n % 2 ^ s) ∧ n / 2 ^ s % 2 = 1 then n / 2 ^ s + 1
  else n / 2 ^ s

/-- The bits of the float that is nearest to a natural number. -/
def ofNat (n : ℕ) : ℕ :=
  if n = 0 then 0
  else if n.log2 ≤ 23 then (127 + n.log2) * 2 ^ 23 + (n * 2 ^ (23 - n.log2) - 2 ^ 23)
  else (127 + n.log2) * 2 ^ 23 + (shiftEven n (n.log2 - 23) - 2 ^ 23)

/-- The natural number that is left of a float without its fraction. There is none for a negative
float and for one from `2 ^ 32` on, the language does not say what they become. -/
def toNat (bits : ℕ) : Option ℕ :=
  let exponent := bits / 2 ^ 23 % 2 ^ 8
  let significand := 2 ^ 23 + bits % 2 ^ 23
  if exponent < 127 then some 0
  else if bits / 2 ^ 31 % 2 = 1 ∨ 127 + 32 ≤ exponent then none
  else if exponent ≤ 127 + 23 then some (significand / 2 ^ (127 + 23 - exponent))
  else some (significand * 2 ^ (exponent - (127 + 23)))

/-- Numbers of 32 bits that are 24 bits and then zeros. -/
def Exact (n : ℕ) : Prop := n < 2 ^ 32 ∧ ∃ m k, m < 2 ^ 24 ∧ n = m * 2 ^ k

/-! ## The highest 24 bits of a number -/

section Shifts

variable {n : ℕ}

theorem le_shiftUp (hn : n ≠ 0) (h : n.log2 ≤ 23) : 2 ^ 23 ≤ n * 2 ^ (23 - n.log2) :=
  calc 2 ^ 23 = 2 ^ n.log2 * 2 ^ (23 - n.log2) := by
        rw [← Nat.pow_add, Nat.add_sub_cancel' h]
    _ ≤ n * 2 ^ (23 - n.log2) := Nat.mul_le_mul_right _ (Nat.log2_self_le hn)

theorem shiftUp_lt (h : n.log2 ≤ 23) : n * 2 ^ (23 - n.log2) < 2 ^ 24 :=
  calc n * 2 ^ (23 - n.log2) < 2 ^ (n.log2 + 1) * 2 ^ (23 - n.log2) :=
        Nat.mul_lt_mul_of_pos_right Nat.lt_log2_self (Nat.two_pow_pos _)
    _ = 2 ^ 24 := by
      rw [← Nat.pow_add]
      congr 1
      omega

theorem le_shiftDown (hn : n ≠ 0) (h : 23 ≤ n.log2) : 2 ^ 23 ≤ n / 2 ^ (n.log2 - 23) := by
  rw [Nat.le_div_iff_mul_le (Nat.two_pow_pos _), ← Nat.pow_add, Nat.add_sub_cancel' h]
  exact Nat.log2_self_le hn

theorem shiftDown_lt (h : 23 ≤ n.log2) : n / 2 ^ (n.log2 - 23) < 2 ^ 24 := by
  have hsum : 24 + (n.log2 - 23) = n.log2 + 1 := by omega
  rw [Nat.div_lt_iff_lt_mul (Nat.two_pow_pos _), ← Nat.pow_add, hsum]
  exact Nat.lt_log2_self

end Shifts

/-! ## There and back -/

section Packed

variable {e f : ℕ}

/-- The fields of a float that is put together from them. -/
theorem toNat_packed (he : e < 32) (hf : f < 2 ^ 23) :
    toNat ((127 + e) * 2 ^ 23 + f) =
      if e ≤ 23 then some ((2 ^ 23 + f) / 2 ^ (23 - e))
      else some ((2 ^ 23 + f) * 2 ^ (e - 23)) := by
  have hexponent : ((127 + e) * 2 ^ 23 + f) / 2 ^ 23 % 2 ^ 8 = 127 + e := by omega
  have hfraction : ((127 + e) * 2 ^ 23 + f) % 2 ^ 23 = f := by omega
  have hsign : ((127 + e) * 2 ^ 23 + f) / 2 ^ 31 % 2 ≠ 1 := by omega
  have hlow : ¬127 + e < 127 := by omega
  have hhigh : ¬(((127 + e) * 2 ^ 23 + f) / 2 ^ 31 % 2 = 1 ∨ 127 + 32 ≤ 127 + e) := by omega
  have hdown : 127 + 23 - (127 + e) = 23 - e := by omega
  have hup : 127 + e - (127 + 23) = e - 23 := by omega
  have hle : (127 + e ≤ 127 + 23) = (e ≤ 23) := by
    apply propext
    omega
  simp only [toNat, hexponent, hfraction, if_neg hlow, if_neg hhigh, hdown, hup, hle]

end Packed

/-- A number of 32 bits that is 24 bits and then zeros is a multiple of its lowest place. -/
theorem Exact.dvd {n : ℕ} (h : Exact n) (hn : n ≠ 0) : 2 ^ (n.log2 - 23) ∣ n := by
  obtain ⟨-, m, k, hm, hmk⟩ := h
  have hself := Nat.log2_self_le hn
  have hk : n.log2 - 23 ≤ k := by
    by_contra hlt
    have hle : 2 ^ (24 + k) ≤ 2 ^ n.log2 := Nat.pow_le_pow_right (by omega) (by omega)
    have hup : m * 2 ^ k < 2 ^ 24 * 2 ^ k := Nat.mul_lt_mul_of_pos_right hm (Nat.two_pow_pos _)
    rw [Nat.pow_add] at hle
    omega
  rw [hmk] at hk ⊢
  exact Nat.dvd_trans (Nat.pow_dvd_pow 2 hk) (Nat.dvd_mul_left _ _)

theorem shiftEven_of_dvd {n s : ℕ} (h : 2 ^ s ∣ n) : shiftEven n s = n / 2 ^ s := by
  have hpos : 0 < 2 ^ s := Nat.two_pow_pos s
  rw [shiftEven, Nat.mod_eq_zero_of_dvd h]
  exact if_neg (by omega)

/-- **A number of 24 bits and then zeros comes back.** -/
theorem toNat_ofNat {n : ℕ} (h : Exact n) : toNat (ofNat n) = some n := by
  by_cases hn : n = 0
  · subst hn
    rfl
  have hbound : n.log2 < 32 := (Nat.log2_lt hn).mpr h.1
  rw [ofNat, if_neg hn]
  by_cases hle : n.log2 ≤ 23
  · have hlow := le_shiftUp hn hle
    have hhigh := shiftUp_lt hle
    rw [if_pos hle, toNat_packed hbound (by omega), if_pos hle, Nat.add_sub_cancel' hlow,
      Nat.mul_div_cancel _ (Nat.two_pow_pos _)]
  · have hdvd := h.dvd hn
    have hlow := le_shiftDown hn (Nat.le_of_not_le hle)
    have hhigh := shiftDown_lt (Nat.le_of_not_le hle)
    rw [if_neg hle, shiftEven_of_dvd hdvd, toNat_packed hbound (by omega), if_neg hle,
      Nat.add_sub_cancel' hlow, Nat.div_mul_cancel hdvd]

example : ofNat 1 = 0x3f800000 := rfl

/-! ## The width of the bits -/

theorem shiftEven_le (n s : ℕ) : shiftEven n s ≤ n / 2 ^ s + 1 := by
  rw [shiftEven]
  split
  · exact le_rfl
  · exact Nat.le_succ _

/-- A number of 32 bits becomes a float that is at most `2 ^ 32`. -/
theorem ofNat_le {n : ℕ} (h : n < 2 ^ 32) : ofNat n ≤ (127 + 32) * 2 ^ 23 := by
  rw [ofNat]
  by_cases hn : n = 0
  · rw [if_pos hn]
    exact Nat.zero_le _
  have hbound : n.log2 < 32 := (Nat.log2_lt hn).mpr h
  rw [if_neg hn]
  by_cases hle : n.log2 ≤ 23
  · have hhigh := shiftUp_lt hle
    rw [if_pos hle]
    omega
  · have hhigh := shiftDown_lt (Nat.le_of_not_le hle)
    have hshift := shiftEven_le n (n.log2 - 23)
    rw [if_neg hle]
    omega

/-- The bits of a number of 32 bits are 32 bits. -/
theorem ofNat_lt {n : ℕ} (h : n < 2 ^ 32) : ofNat n < 2 ^ 32 :=
  Nat.lt_of_le_of_lt (ofNat_le h) (by decide)

end Groonga.Lib.Binary32
