import Groonga.Lib.Patricia
import Mathlib

/-!
# The order of a patricia tree

Words are ordered by their first different bit, and the leaves of a well-formed tree
stand in this order. The leaves whose words begin with a given word are those of one
subtree: the one that the given word comes to on its way down.
-/

namespace Groonga.Lib.Patricia

open Trie

variable {ι : Type} {w : ι → Word} {lo : ℤ} {t : Trie ι} {v u x : Word} {k : List (Frame ι)} {i j : ι}

/-! ## Words in order -/

/-- **The order of words**: the first different bit decides. -/
def Word.Lt (v u : Word) : Prop :=
  ∃ c, c < v.len ∧ c < u.len ∧ v.AgreeBelow c u ∧ v.bit c = false ∧ u.bit c = true

/-- The order of words, or its converse. -/
def Word.Before (descending : Bool) (v u : Word) : Prop := if descending then u.Lt v else v.Lt u

theorem Word.Lt.asymm (h : v.Lt u) : ¬ u.Lt v := by
  rintro ⟨c', -, -, hagree', hu', hv'⟩
  obtain ⟨c, -, -, hagree, hv, hu⟩ := h
  rcases lt_trichotomy c c' with hlt | rfl | hlt
  · have := hagree' c hlt
    rw [hv, hu] at this
    cases this
  · rw [hv] at hv'
    cases hv'
  · have := hagree c' hlt
    rw [hv', hu'] at this
    cases this

/-- Two words that differ at a position are in the order of their bits there. -/
theorem Word.before_of_bit {c : ℕ} {d : Bool} (hv : c < v.len) (hu : c < u.len)
    (hagree : v.AgreeBelow c u) (hvd : v.bit c = d) (hud : u.bit c = !d) : v.Before d u := by
  cases d with
  | false => exact ⟨c, hv, hu, hagree, hvd, hud⟩
  | true => exact ⟨c, hu, hv, hagree.symm, hud, hvd⟩

/-! ## Leaves in order -/

namespace Trie

/-- The leaves from left to right, or from right to left. -/
def inOrder (descending : Bool) : Trie ι → List ι
  | nil => []
  | leaf i => [i]
  | node _ _ child =>
    (child descending).inOrder descending ++ (child (!descending)).inOrder descending

@[simp] theorem mem_inOrder {descending : Bool} : j ∈ t.inOrder descending ↔ j ∈ t.leaves := by
  induction t with
  | nil => simp [inOrder]
  | leaf i => simp [inOrder]
  | node i c child ih =>
    rw [inOrder, List.mem_append, ih, ih, mem_leaves_node, Bool.exists_bool]
    cases descending
    · rfl
    · exact or_comm

/-- **The leaves of a well-formed tree stand in order.** -/
theorem WF.pairwise_inOrder (h : WF w lo t) (descending : Bool) :
    (t.inOrder descending).Pairwise fun i j => (w i).Before descending (w j) := by
  induction t generalizing lo with
  | nil => exact .nil
  | leaf i => exact List.pairwise_singleton ..
  | node i c child ih =>
    obtain ⟨-, hbelow, hside⟩ := h
    refine List.pairwise_append.mpr ⟨ih _ (hside _).2, ih _ (hside _).2, fun a ha b hb => ?_⟩
    have ha : a ∈ (child descending).ids := mem_ids.mpr (.inr (mem_inOrder.mp ha))
    have hb : b ∈ (child (!descending)).ids := mem_ids.mpr (.inr (mem_inOrder.mp hb))
    obtain ⟨halen, hai⟩ := hbelow a (mem_ids_node.mpr (.inr ⟨_, ha⟩))
    obtain ⟨hblen, hbi⟩ := hbelow b (mem_ids_node.mpr (.inr ⟨_, hb⟩))
    exact Word.before_of_bit halen hblen (hai.trans hbi.symm) ((hside _).1 a ha) ((hside _).1 b hb)

/-! ## The words that begin with a word -/

/-- A word that begins with `v` is below the place that `v` comes to. -/
theorem mem_leaves_descend (h : WF w lo t) (hj : j ∈ t.leaves) (hagree : v.AgreeBelow v.len (w j)) :
    j ∈ (descend v k t).2.leaves := by
  induction t generalizing k lo with
  | nil => exact hj
  | leaf i => exact hj
  | node i c child ih =>
    rw [descend]
    split_ifs with hc
    · obtain ⟨-, -, hside⟩ := h
      obtain ⟨d, hd⟩ := mem_leaves_node.mp hj
      have hbit : v.bit c = d :=
        (hagree c hc).trans ((hside d).1 j (mem_ids.mpr (.inr hd)))
      rw [hbit]
      exact ih d (hside d).2 hd
    · exact hj

/-- What stands at the place that a word comes to is part of the tree. -/
theorem mem_ids_of_descend (hj : j ∈ (descend v k t).2.ids) : j ∈ t.ids := by
  induction t generalizing k with
  | nil => exact hj
  | leaf i => exact hj
  | node i c child ih =>
    rw [descend] at hj
    split_ifs at hj with hc
    · exact mem_ids_node.mpr (.inr ⟨_, ih _ hj⟩)
    · exact hj

theorem mem_leaves_of_descend (hj : j ∈ (descend v k t).2.leaves) : j ∈ t.leaves := by
  induction t generalizing k with
  | nil => exact hj
  | leaf i => exact hj
  | node i c child ih =>
    rw [descend] at hj
    split_ifs at hj with hc
    · exact mem_leaves_node.mpr ⟨_, ih _ hj⟩
    · exact hj

end Trie

end Groonga.Lib.Patricia
