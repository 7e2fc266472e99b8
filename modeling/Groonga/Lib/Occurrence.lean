import Mathlib

/-!
# Occurrences of words

A word occurs in a text where the text goes on with it. A search from the left looks at the character
under the end of the word. The distance from the end of the word back to the last such character before it tells how
far the word may be moved: no occurrence is passed over.
-/

namespace Groonga.Lib

variable {α : Type*} {x y : List α} {c : α} {d f p q : ℕ}

/-- The word `x` occurs in the text `y` at the position `f`. -/
def Occurs (x y : List α) (f : ℕ) : Prop := x <+: y.drop f

instance [DecidableEq α] (x y : List α) (f : ℕ) : Decidable (Occurs x y f) :=
  inferInstanceAs (Decidable (x <+: y.drop f))

theorem occurs_iff : Occurs x y f ↔ ∀ i < x.length, y[f + i]? = x[i]? := by
  rw [Occurs, List.prefix_iff_getElem?]
  constructor
  · intro h i hi
    rw [← List.getElem?_drop, h i hi, List.getElem?_eq_getElem hi]
  · intro h i hi
    rw [List.getElem?_drop, h i hi, List.getElem?_eq_getElem hi]

theorem Occurs.add_le (h : Occurs x y f) (hx : x ≠ []) : f + x.length ≤ y.length := by
  have hle := h.length_le
  have hpos := List.length_pos_iff.mpr hx
  rw [List.length_drop] at hle
  omega

/-- **The word may be moved by `d`** where `c` is under its end: it has no `c` at a smaller distance from its
end. -/
structure Skips (x : List α) (c : α) (d : ℕ) : Prop where
  pos : 0 < d
  le : d ≤ x.length
  none : ∀ k, 0 < k → k < d → x[x.length - 1 - k]? ≠ some c

/-- An occurrence that ends at `p` has the last character of the word there. -/
theorem not_occurs_of_ne (hx : x ≠ []) (hp : x.length ≤ p) (hc : y[p - 1]? = some c) (hne : x[x.length - 1]? ≠ some c) :
    ¬ Occurs x y (p - x.length) := by
  have hpos := List.length_pos_iff.mpr hx
  intro h
  have hlast := occurs_iff.mp h (x.length - 1) (by omega)
  rw [show p - x.length + (x.length - 1) = p - 1 by omega, hc] at hlast
  exact hne hlast.symm

/-- **No occurrence is passed over.** -/
theorem Skips.not_occurs (h : Skips x c d) (hp : x.length ≤ p) (hc : y[p - 1]? = some c) (hlt : p < q)
    (hq : q < p + d) : ¬ Occurs x y (q - x.length) := by
  have hd := h.le
  intro hoccurs
  have hunder := occurs_iff.mp hoccurs (x.length - 1 - (q - p)) (by omega)
  rw [show q - x.length + (x.length - 1 - (q - p)) = p - 1 by omega, hc] at hunder
  exact h.none (q - p) (by omega) (by omega) hunder.symm

/-- The first positions of a text, with the property, from a position on. -/
def Next (good : ℕ → Prop) (lo : ℕ) : Option ℕ → Prop
  | some f => lo ≤ f ∧ good f ∧ ∀ g, lo ≤ g → g < f → ¬ good g
  | none => ∀ g, lo ≤ g → ¬ good g

end Groonga.Lib
