import Groonga.Lib.Patricia
import Groonga.Pat.Basic
import Mathlib

/-!
# Keys as code words

The check of a node packs a byte, a bit and the flag `terminated`. Read as a position,
it runs through a code word of the key: an even position is a bit of the key, an odd
position tells whether the key goes on behind the byte. The code word of a key ends
with its only `false` at an odd position after the first byte's end, so no code word is
a proper start of another one, and two different keys differ at the check that
`grn_pat_add_internal_find` computes for them.
-/

namespace Groonga.Pat

open Lib.Patricia

/-- The code word of a key: `direction` at every check below `check_max`. -/
def word (key : List UInt8) : Word where
  len := key.length * 16
  bit := fun check => direction key check (key.length * 16)

@[simp] theorem word_len (key : List UInt8) : (word key).len = key.length * 16 := rfl

@[simp] theorem patCheckPack_length (n : ℕ) : patCheckPack n 0 false = n * 16 := rfl

theorem word_bit_even {key : List UInt8} {p : ℕ} (hp : p % 2 = 0) :
    (word key).bit p = nthBit key p := by
  simp only [word, direction, if_neg (show ¬ p % 2 = 1 by omega)]

theorem word_bit_odd {key : List UInt8} {p : ℕ} (hp : p % 2 = 1) :
    (word key).bit p = decide (p + 1 < key.length * 16) := by
  simp only [word, direction, if_pos hp]

/-- Before the end of a byte that both keys have, only the bits of the key count. -/
theorem word_bit_eq {k f : List UInt8} {p : ℕ} (hk : p + 1 < k.length * 16)
    (hf : p + 1 < f.length * 16) (hbit : p % 2 = 0 → nthBit k p = nthBit f p) :
    (word k).bit p = (word f).bit p := by
  rcases Nat.mod_two_eq_zero_or_one p with hp | hp
  · rw [word_bit_even hp, word_bit_even hp, hbit hp]
  · rw [word_bit_odd hp, word_bit_odd hp, decide_eq_true hk, decide_eq_true hf]

theorem nthBit_append_left {pre k f : List UInt8} {p : ℕ} (hp : p / 16 < pre.length) :
    nthBit (pre ++ k) p = nthBit (pre ++ f) p := by
  simp only [nthBit, List.getD_append _ _ _ _ hp]

/-- Keys with a common start agree before its end. -/
theorem agreeBelow_append {pre k f : List UInt8} {c : ℕ} (hc : c ≤ pre.length * 16)
    (hk : c < (pre ++ k).length * 16) (hf : c < (pre ++ f).length * 16) :
    (word (pre ++ k)).AgreeBelow c (word (pre ++ f)) := by
  intro p hp
  exact word_bit_eq (by omega) (by omega) fun _ => nthBit_append_left (by omega)

/-! ## The first different bit of two bytes -/

theorem exists_testBit_ne {x y : UInt8} (h : x ≠ y) :
    ∃ i < 8, x.toNat.testBit (7 - i) ≠ y.toNat.testBit (7 - i) := by
  by_contra hall
  push Not at hall
  refine h (UInt8.toNat_inj.mp (Nat.eq_of_testBit_eq fun j => ?_))
  rcases Nat.lt_or_ge j 8 with hj | hj
  · have := hall (7 - j) (by omega)
    rwa [show 7 - (7 - j) = j by omega] at this
  · have hpow : 2 ^ 8 ≤ 2 ^ j := Nat.pow_le_pow_right (by omega) hj
    rw [Nat.testBit_lt_two_pow (x.toNat_lt.trans_le hpow),
      Nat.testBit_lt_two_pow (y.toNat_lt.trans_le hpow)]

theorem bitDifferences_spec {x y : UInt8} {n : ℕ} : ∀ fuel i, fuel + i = n →
    (∃ j < n, i ≤ j ∧ x.toNat.testBit (7 - j) ≠ y.toNat.testBit (7 - j)) →
    (∀ j < i, x.toNat.testBit (7 - j) = y.toNat.testBit (7 - j)) →
      bitDifferences x y fuel i < n ∧
      x.toNat.testBit (7 - bitDifferences x y fuel i) ≠
        y.toNat.testBit (7 - bitDifferences x y fuel i) ∧
      ∀ j < bitDifferences x y fuel i, x.toNat.testBit (7 - j) = y.toNat.testBit (7 - j) := by
  intro fuel
  induction fuel with
  | zero =>
    rintro i hi ⟨j, hj, hij, -⟩ -
    omega
  | succ fuel ih =>
    rintro i hi ⟨j, hj, hij, hne⟩ heq
    rw [bitDifferences]
    split_ifs with hbit
    · exact ⟨by omega, hbit, heq⟩
    · have hbit := not_not.mp hbit
      refine ih (i + 1) (by omega) ⟨j, hj, ?_, hne⟩ fun l hl => ?_
      · rcases Nat.lt_or_ge i j with h | h
        · exact h
        · obtain rfl : i = j := by omega
          exact absurd hbit hne
      · rcases Nat.lt_succ_iff_lt_or_eq.mp hl with hl | rfl
        · exact heq l hl
        · exact hbit

/-! ## The first difference of two keys -/

/-- The words of two keys agree before a check and differ at it. -/
structure DiffersAt (k f : List UInt8) (c : ℕ) : Prop where
  lt_left : c < (word k).len
  lt_right : c < (word f).len
  agree : (word k).AgreeBelow c (word f)
  ne : (word k).bit c ≠ (word f).bit c

theorem keyDifference_append {pre k f : List UInt8} (hpre : pre = [] → k ≠ [] ∧ f ≠ [])
    (hne : k ≠ f) : DiffersAt (pre ++ k) (pre ++ f) (keyDifference pre.length k f) := by
  induction k generalizing pre f with
  | nil =>
    -- the key is a proper start of the found key
    have hlen : 0 < pre.length := by
      rcases pre with _ | ⟨x, pre⟩
      · exact absurd rfl (hpre rfl).1
      · simp
    have hf : 0 < f.length := List.length_pos_iff.mpr (Ne.symm hne)
    have hc : keyDifference pre.length [] f = pre.length * 16 - 1 := by
      simp only [keyDifference, patCheckPack, Bool.toNat_true]
      omega
    rw [hc]
    have hodd : (pre.length * 16 - 1) % 2 = 1 := by omega
    refine ⟨?_, ?_, agreeBelow_append (by omega) ?_ ?_, ?_⟩
    · simp; omega
    · simp; omega
    · simp; omega
    · simp; omega
    · rw [word_bit_odd hodd, word_bit_odd hodd, List.length_append, List.length_append,
        decide_eq_false (by simp; omega), decide_eq_true (by omega)]
      exact Bool.false_ne_true
  | cons x k ih =>
    rcases f with _ | ⟨y, f⟩
    · -- the found key is a proper start of the key
      have hlen : 0 < pre.length := by
        rcases pre with _ | ⟨x, pre⟩
        · exact absurd rfl (hpre rfl).2
        · simp
      have hc : keyDifference pre.length (x :: k) [] = pre.length * 16 - 1 := by
        simp only [keyDifference, patCheckPack, Bool.toNat_true]
        omega
      rw [hc]
      have hodd : (pre.length * 16 - 1) % 2 = 1 := by omega
      refine ⟨?_, ?_, agreeBelow_append (by omega) ?_ ?_, ?_⟩
      · simp; omega
      · simp; omega
      · simp; omega
      · simp; omega
      · rw [word_bit_odd hodd, word_bit_odd hodd, List.length_append, List.length_append,
          decide_eq_true (by simp; omega), decide_eq_false (by simp; omega)]
        exact Bool.false_ne_true.symm
    · by_cases hxy : x = y
      · subst hxy
        have := @ih (pre ++ [x]) f (by simp) (fun h => hne (by rw [h]))
        rw [List.append_assoc, List.append_assoc, List.length_append, List.length_singleton] at this
        rw [keyDifference, if_pos rfl]
        exact this
      · -- the keys differ in this byte
        obtain ⟨i, hi, hbit⟩ := exists_testBit_ne hxy
        obtain ⟨hlt, hdiff, heq⟩ := @bitDifferences_spec x y 8 8 0 rfl ⟨i, hi, Nat.zero_le _, hbit⟩
          fun j hj => absurd hj (Nat.not_lt_zero j)
        generalize hb : bitDifferences x y 8 0 = b at hlt hdiff heq
        have hc : keyDifference pre.length (x :: k) (y :: f) = pre.length * 16 + b * 2 := by
          rw [keyDifference, if_neg hxy, hb]
          rfl
        have hbyte : ∀ (z : UInt8) (l : List UInt8) (p : ℕ), p / 16 = pre.length →
            nthBit (pre ++ z :: l) p = z.toNat.testBit (7 - p / 2 % 8) := by
          intro z l p hp
          rw [nthBit, hp, List.getD_append_right _ _ _ _ le_rfl, Nat.sub_self, List.getD_cons_zero]
        have hk : (pre ++ x :: k).length = pre.length + k.length + 1 := by simp; omega
        have hf : (pre ++ y :: f).length = pre.length + f.length + 1 := by simp; omega
        rw [hc]
        refine ⟨by rw [word_len, hk]; omega, by rw [word_len, hf]; omega, fun p hp => ?_, ?_⟩
        · refine word_bit_eq (by rw [hk]; omega) (by rw [hf]; omega) fun heven => ?_
          rcases Nat.lt_or_ge (p / 16) pre.length with hin | hin
          · exact nthBit_append_left hin
          · have hp16 : p / 16 = pre.length := by omega
            rw [hbyte x k p hp16, hbyte y f p hp16]
            exact heq _ (by omega)
        · have heven : (pre.length * 16 + b * 2) % 2 = 0 := by omega
          have hp16 : (pre.length * 16 + b * 2) / 16 = pre.length := by omega
          rw [word_bit_even heven, word_bit_even heven, hbyte x k _ hp16, hbyte y f _ hp16,
            show (pre.length * 16 + b * 2) / 2 % 8 = b by omega]
          exact hdiff

/-- **The computed check is the first difference.** -/
theorem differsAt_keyDifference {k f : List UInt8} (hk : k ≠ []) (hf : f ≠ []) (hne : k ≠ f) :
    DiffersAt k f (keyDifference 0 k f) :=
  @keyDifference_append [] k f (fun _ => ⟨hk, hf⟩) hne

/-- The check computed for a key and itself is its last one. -/
theorem keyDifference_self {k : List UInt8} (hk : k ≠ []) :
    keyDifference 0 k k = k.length * 16 - 1 := by
  have hgen : ∀ n, 0 < n + k.length → keyDifference n k k = (n + k.length) * 16 - 1 := by
    clear hk
    induction k with
    | nil =>
      intro n hn
      simp only [keyDifference, patCheckPack, Bool.toNat_true, List.length_nil] at hn ⊢
      omega
    | cons x k ih =>
      intro n _
      rw [keyDifference, if_pos rfl, ih (n + 1) (by omega), List.length_cons]
      congr 2
      omega
  have := hgen 0 (by have := List.length_pos_iff.mpr hk; omega)
  rwa [Nat.zero_add] at this

end Groonga.Pat
