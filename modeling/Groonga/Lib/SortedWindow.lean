import Groonga.Lib.QuickSort
import Mathlib

/-!
# Two arrangements of the same items

When the same items are arranged twice, in order, the items at a position are tied. It is enough
that one arrangement is in order at the positions of a window, for these positions: how many items
belong before and behind the item there does not depend on the arrangement.
-/

namespace Groonga.Lib

variable {α : Type} {gt : α → α → Bool} {a b : ℕ → α} {n i : ℕ}

theorem countP_map_range (p : α → Bool) (f : ℕ → α) (n : ℕ) :
    ((List.range n).map f).countP p = ((Finset.range n).filter fun j => p (f j) = true).card := by
  rw [List.countP_map, List.countP_eq_length_filter, ← List.toFinset_card_of_nodup (List.nodup_range.filter _)]
  congr 1
  ext j
  simp

/-- **Tied at the positions of a window**, if both are in order there. -/
theorem tied_of_sorted (hgt : StrictWeak gt) (hperm : ((List.range n).map a).Perm ((List.range n).map b))
    (hb : ∀ j k, j < k → k < n → gt (b j) (b k) = false) (hi : i < n)
    (hbefore : ∀ j, j < i → gt (a j) (a i) = false) (hbehind : ∀ j, i < j → j < n → gt (a i) (a j) = false) :
    gt (a i) (b i) = false ∧ gt (b i) (a i) = false := by
  have hcount : ∀ p : α → Bool, ((Finset.range n).filter fun j => p (a j) = true).card =
      ((Finset.range n).filter fun j => p (b j) = true).card := fun p => by
    rw [← countP_map_range, ← countP_map_range]
    exact hperm.countP_eq p
  constructor
  · -- otherwise more items belong before `a i` in the one arrangement
    by_contra hlt
    have hlt : gt (a i) (b i) = true := by simpa using hlt
    have hmany : Finset.range (i + 1) ⊆ (Finset.range n).filter fun j => gt (a i) (b j) = true := by
      intro j hj
      rw [Finset.mem_range] at hj
      rw [Finset.mem_filter, Finset.mem_range]
      refine ⟨by omega, ?_⟩
      by_contra hno
      have hji : gt (b j) (b i) = false := by
        rcases Nat.lt_or_eq_of_le (Nat.le_of_lt_succ hj) with hj | rfl
        · exact hb j i hj hi
        · exact hgt.irrefl _
      rw [hgt.trans _ _ _ (Bool.eq_false_of_not_eq_true hno) hji] at hlt
      cases hlt
    have hfew : ((Finset.range n).filter fun j => gt (a i) (a j) = true) ⊆ Finset.range i := by
      intro j hj
      rw [Finset.mem_filter, Finset.mem_range] at hj
      rw [Finset.mem_range]
      by_contra hij
      rcases Nat.lt_or_eq_of_le (Nat.not_lt.mp hij) with hij | rfl
      · rw [hbehind j hij hj.1] at hj
        cases hj.2
      · rw [hgt.irrefl] at hj
        cases hj.2
    have h₁ := Finset.card_le_card hmany
    have h₂ := Finset.card_le_card hfew
    rw [Finset.card_range] at h₁ h₂
    rw [hcount fun x => gt (a i) x] at h₂
    omega
  · by_contra hlt
    have hlt : gt (b i) (a i) = true := by simpa using hlt
    have hmany : Finset.Ico i n ⊆ (Finset.range n).filter fun j => gt (b j) (a i) = true := by
      intro j hj
      rw [Finset.mem_Ico] at hj
      rw [Finset.mem_filter, Finset.mem_range]
      refine ⟨hj.2, ?_⟩
      by_contra hno
      have hij : gt (b i) (b j) = false := by
        rcases Nat.lt_or_eq_of_le hj.1 with hij | rfl
        · exact hb i j hij hj.2
        · exact hgt.irrefl _
      rw [hgt.trans _ _ _ hij (Bool.eq_false_of_not_eq_true hno)] at hlt
      cases hlt
    have hfew : ((Finset.range n).filter fun j => gt (a j) (a i) = true) ⊆ Finset.Ico (i + 1) n := by
      intro j hj
      rw [Finset.mem_filter, Finset.mem_range] at hj
      rw [Finset.mem_Ico]
      refine ⟨?_, hj.1⟩
      by_contra hij
      rcases Nat.lt_or_eq_of_le (Nat.le_of_lt_succ (Nat.not_le.mp hij)) with hji | rfl
      · rw [hbefore j hji] at hj
        cases hj.2
      · rw [hgt.irrefl] at hj
        cases hj.2
    have h₁ := Finset.card_le_card hmany
    have h₂ := Finset.card_le_card hfew
    rw [Nat.card_Ico] at h₁ h₂
    rw [hcount fun x => gt x (a i)] at h₂
    omega

end Groonga.Lib
