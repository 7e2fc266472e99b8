import Mathlib

/-!
# Chains of cells

Cells are linked by numbers, and 0 ends a chain. A cell is put in front of a chain, or the first
cell is taken from it, by changing where the chain starts and what the cell itself holds.
-/

namespace Groonga.Lib

variable {next next' : ℕ → ℕ} {start x : ℕ} {xs ys : List ℕ}

/-- From `start` the cells lead to each other. -/
def Chain (next : ℕ → ℕ) : ℕ → List ℕ → Prop
  | start, [] => start = 0
  | start, x :: xs => start = x ∧ x ≠ 0 ∧ Chain next (next x) xs

/-- **A chain depends on its own cells.** -/
theorem Chain.congr (h : Chain next start xs) (hsame : ∀ x ∈ xs, next' x = next x) :
    Chain next' start xs := by
  induction xs generalizing start with
  | nil => exact h
  | cons x xs ih =>
    obtain ⟨rfl, hne, hrest⟩ := h
    refine ⟨rfl, hne, ?_⟩
    rw [hsame start List.mem_cons_self]
    exact ih hrest fun y hy => hsame y (List.mem_cons_of_mem _ hy)

/-- A cell is put in front. -/
theorem Chain.push (h : Chain next start xs) (hx : x ≠ 0) (hlink : next' x = start)
    (hsame : ∀ y ∈ xs, next' y = next y) : Chain next' x (x :: xs) := by
  refine ⟨rfl, hx, ?_⟩
  rw [hlink]
  exact h.congr hsame

/-- The first cell is taken. -/
theorem Chain.pop (h : Chain next start xs) (hne : start ≠ 0) :
    ∃ ys, xs = start :: ys ∧ Chain next (next start) ys := by
  cases xs with
  | nil => exact absurd h hne
  | cons x xs =>
    obtain ⟨rfl, -, hrest⟩ := h
    exact ⟨xs, rfl, hrest⟩

end Groonga.Lib
