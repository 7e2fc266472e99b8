import Mathlib

/-!
# Ring buffers

A ring buffer keeps its items in places `0 .. cap - 1`, from the place `tail` on and around.
An item is put behind the last one and taken from the place `tail`.
-/

namespace Groonga.Lib

variable {α : Type} {recs : ℕ → α} {cap tail n : ℕ}

/-- The `n` items from the place `tail` on. -/
def ring (recs : ℕ → α) (cap tail n : ℕ) : List α :=
  (List.range n).map fun k => recs ((tail + k) % cap)

@[simp] theorem length_ring (recs : ℕ → α) (cap tail n : ℕ) : (ring recs cap tail n).length = n := by
  simp [ring]

/-- **An item is put behind the last one.** -/
theorem ring_push {recs' : ℕ → α} (hn : n < cap)
    (hother : ∀ i < cap, i ≠ (tail + n) % cap → recs' i = recs i) :
    ring recs' cap tail (n + 1) = ring recs cap tail n ++ [recs' ((tail + n) % cap)] := by
  have hcap : 0 < cap := by omega
  rw [ring, List.range_succ, List.map_append, List.map_singleton]
  congr 1
  refine List.map_congr_left fun k hk => hother _ (Nat.mod_lt _ hcap) fun heq => ?_
  -- two items less than a round apart are in different places
  have hlt := List.mem_range.mp hk
  have hmod : (tail + k) % cap = (tail + k + (n - k)) % cap := by
    rw [heq]
    congr 1
    omega
  have hdvd := (Nat.modEq_iff_dvd' (Nat.le_add_right (tail + k) (n - k))).mp hmod
  rw [Nat.add_sub_cancel_left] at hdvd
  have hle := Nat.le_of_dvd (by omega) hdvd
  omega

/-- **An item is taken from the front.** -/
theorem ring_pop (htail : tail < cap) :
    ring recs cap tail (n + 1) = recs tail :: ring recs cap ((tail + 1) % cap) n := by
  rw [ring, List.range_succ_eq_map, List.map_cons, List.map_map, Nat.add_zero, Nat.mod_eq_of_lt htail]
  congr 1
  refine List.map_congr_left fun k _ => ?_
  simp only [Function.comp_apply, Nat.mod_add_mod]
  congr 2
  omega

end Groonga.Lib
