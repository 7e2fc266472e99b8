import Mathlib

/-!
# Edit distances

An alignment turns a list into another one: it keeps an element, replaces, deletes or inserts
one, or swaps two neighbours, and what it swapped is not changed again. Each step but the first
kind costs 1. The distance of two lists is the least cost of their alignments. Which neighbours
may be swapped is a parameter: with no swaps it is the distance of Levenshtein, with all swaps
the optimal string alignment.

Lists are aligned from their heads. The tables of the usual algorithm have the distances of the
prefixes of two texts, so they are about reversed lists.
-/

namespace Groonga.Lib

variable {α : Type*} {swaps swaps' : α → α → Prop} {a b : α} {xs ys : List α} {n : ℕ}

/-- **An alignment of two lists**, with its cost. -/
inductive Alignment (swaps : α → α → Prop) : List α → List α → ℕ → Prop
  | nil : Alignment swaps [] [] 0
  | keep (a : α) {xs ys : List α} {n : ℕ} (h : Alignment swaps xs ys n) : Alignment swaps (a :: xs) (a :: ys) n
  | replace (a b : α) {xs ys : List α} {n : ℕ} (h : Alignment swaps xs ys n) :
    Alignment swaps (a :: xs) (b :: ys) (n + 1)
  | delete (a : α) {xs ys : List α} {n : ℕ} (h : Alignment swaps xs ys n) : Alignment swaps (a :: xs) ys (n + 1)
  | insert (b : α) {xs ys : List α} {n : ℕ} (h : Alignment swaps xs ys n) : Alignment swaps xs (b :: ys) (n + 1)
  | swap {a b : α} (hswap : swaps a b) {xs ys : List α} {n : ℕ} (h : Alignment swaps xs ys n) :
    Alignment swaps (a :: b :: xs) (b :: a :: ys) (n + 1)

namespace Alignment

/-- Everything may be inserted. -/
theorem inserts (swaps : α → α → Prop) : ∀ ys : List α, Alignment swaps [] ys ys.length
  | [] => .nil
  | b :: ys => .insert b (inserts swaps ys)

/-- Everything may be deleted. -/
theorem deletes (swaps : α → α → Prop) : ∀ xs : List α, Alignment swaps xs [] xs.length
  | [] => .nil
  | a :: xs => .delete a (deletes swaps xs)

/-- Everything may be kept. -/
theorem keeps (swaps : α → α → Prop) : ∀ xs : List α, Alignment swaps xs xs 0
  | [] => .nil
  | a :: xs => .keep a (keeps swaps xs)

/-- The lists have an alignment. -/
theorem total (swaps : α → α → Prop) (xs ys : List α) : Alignment swaps xs ys (xs.length + ys.length) := by
  induction xs with
  | nil =>
    rw [List.length_nil, Nat.zero_add]
    exact inserts swaps ys
  | cons a xs ih =>
    rw [List.length_cons, Nat.add_right_comm]
    exact .delete a ih

/-- An alignment pays for the difference of the lengths. -/
theorem length_le (h : Alignment swaps xs ys n) : xs.length ≤ ys.length + n ∧ ys.length ≤ xs.length + n := by
  induction h with
  | nil => exact ⟨Nat.le_refl _, Nat.le_refl _⟩
  | _ => simp only [List.length_cons]; omega

/-- Alignments of two parts. -/
theorem append {xs' ys' : List α} {m : ℕ} (h : Alignment swaps xs ys n) (h' : Alignment swaps xs' ys' m) :
    Alignment swaps (xs ++ xs') (ys ++ ys') (n + m) := by
  induction h with
  | nil =>
    rw [Nat.zero_add]
    exact h'
  | keep a _ ih => exact .keep a ih
  | replace a b _ ih =>
    rw [Nat.add_right_comm]
    exact .replace a b ih
  | delete a _ ih =>
    rw [Nat.add_right_comm]
    exact .delete a ih
  | insert b _ ih =>
    rw [Nat.add_right_comm]
    exact .insert b ih
  | swap hswap _ ih =>
    rw [Nat.add_right_comm]
    exact .swap hswap ih

/-- An alignment may be read from its end, if swaps may. -/
theorem reverse (hsymm : ∀ a b, swaps a b → swaps b a) (h : Alignment swaps xs ys n) :
    Alignment swaps xs.reverse ys.reverse n := by
  induction h with
  | nil => exact .nil
  | keep a _ ih =>
    rw [List.reverse_cons, List.reverse_cons]
    exact ih.append (.keep a .nil)
  | replace a b _ ih =>
    rw [List.reverse_cons, List.reverse_cons]
    exact ih.append (.replace a b .nil)
  | delete a _ ih =>
    have hone := ih.append (.delete a .nil)
    rw [List.append_nil] at hone
    rw [List.reverse_cons]
    exact hone
  | insert b _ ih =>
    have hone := ih.append (.insert b .nil)
    rw [List.append_nil] at hone
    rw [List.reverse_cons]
    exact hone
  | @swap a b hswap _ _ _ _ ih =>
    rw [List.reverse_cons, List.reverse_cons, List.append_assoc, List.reverse_cons, List.reverse_cons,
      List.append_assoc]
    exact ih.append (.swap (hsymm a b hswap) .nil)

/-- Swaps that occur in both lists matter, and no others. -/
theorem of_swaps (h : Alignment swaps xs ys n)
    (hswaps : ∀ a b, [a, b] <:+: xs → [b, a] <:+: ys → swaps a b → swaps' a b) : Alignment swaps' xs ys n := by
  induction h with
  | nil => exact .nil
  | keep a _ ih =>
    exact .keep a (ih fun c d hx hy => hswaps c d (List.infix_cons hx) (List.infix_cons hy))
  | replace a b _ ih =>
    exact .replace a b (ih fun c d hx hy => hswaps c d (List.infix_cons hx) (List.infix_cons hy))
  | delete a _ ih => exact .delete a (ih fun c d hx hy => hswaps c d (List.infix_cons hx) hy)
  | insert b _ ih => exact .insert b (ih fun c d hx hy => hswaps c d hx (List.infix_cons hy))
  | @swap a b hswap xs ys _ _ ih =>
    exact .swap (hswaps a b (List.prefix_append [a, b] xs).isInfix (List.prefix_append [b, a] ys).isInfix hswap)
      (ih fun c d hx hy => hswaps c d (List.infix_cons (List.infix_cons hx)) (List.infix_cons (List.infix_cons hy)))

/-- Without the head of the first list, an alignment costs one more at most. -/
theorem tail_left (h : Alignment swaps (a :: xs) ys n) : ∃ m ≤ n + 1, Alignment swaps xs ys m := by
  generalize hl : a :: xs = l at h
  induction h with
  | nil => cases hl
  | @keep c _ _ n h _ =>
    obtain ⟨rfl, rfl⟩ := List.cons.inj hl
    exact ⟨n + 1, Nat.le_refl _, .insert a h⟩
  | @replace c b _ _ n h _ =>
    obtain ⟨rfl, rfl⟩ := List.cons.inj hl
    exact ⟨n + 1, Nat.le_succ _, .insert b h⟩
  | @delete c _ _ n h _ =>
    obtain ⟨rfl, rfl⟩ := List.cons.inj hl
    exact ⟨n, by omega, h⟩
  | @insert b _ _ n h ih =>
    obtain ⟨m, hle, hm⟩ := ih hl
    exact ⟨m + 1, by omega, .insert b hm⟩
  | @swap c b hswap _ _ n h _ =>
    obtain ⟨rfl, rfl⟩ := List.cons.inj hl
    exact ⟨n + 1, by omega, .keep b (.insert a h)⟩

/-- An alignment of two lists that are read in another way. -/
theorem of_map {β : Type*} {f : α → β} (hf : Function.Injective f) {swaps : β → β → Prop}
    (h : Alignment swaps (xs.map f) (ys.map f) n) : Alignment (fun a b => swaps (f a) (f b)) xs ys n := by
  generalize hx : xs.map f = xs' at h
  generalize hy : ys.map f = ys' at h
  induction h generalizing xs ys with
  | nil =>
    obtain rfl := List.map_eq_nil_iff.mp hx
    obtain rfl := List.map_eq_nil_iff.mp hy
    exact .nil
  | keep a _ ih =>
    obtain ⟨c, xs₁, rfl, hc, hx₁⟩ := List.map_eq_cons_iff.mp hx
    obtain ⟨d, ys₁, rfl, hd, hy₁⟩ := List.map_eq_cons_iff.mp hy
    obtain rfl := hf (hc.trans hd.symm)
    exact .keep c (ih hx₁ hy₁)
  | replace a b _ ih =>
    obtain ⟨c, xs₁, rfl, -, hx₁⟩ := List.map_eq_cons_iff.mp hx
    obtain ⟨d, ys₁, rfl, -, hy₁⟩ := List.map_eq_cons_iff.mp hy
    exact .replace c d (ih hx₁ hy₁)
  | delete a _ ih =>
    obtain ⟨c, xs₁, rfl, -, hx₁⟩ := List.map_eq_cons_iff.mp hx
    exact .delete c (ih hx₁ hy)
  | insert b _ ih =>
    obtain ⟨d, ys₁, rfl, -, hy₁⟩ := List.map_eq_cons_iff.mp hy
    exact .insert d (ih hx hy₁)
  | @swap a b hswap _ _ _ _ ih =>
    obtain ⟨c, xs₁, rfl, rfl, hx₁⟩ := List.map_eq_cons_iff.mp hx
    obtain ⟨c', xs₂, rfl, rfl, hx₂⟩ := List.map_eq_cons_iff.mp hx₁
    obtain ⟨d, ys₁, rfl, hd, hy₁⟩ := List.map_eq_cons_iff.mp hy
    obtain ⟨d', ys₂, rfl, hd', hy₂⟩ := List.map_eq_cons_iff.mp hy₁
    obtain rfl := hf hd
    obtain rfl := hf hd'
    exact @Alignment.swap _ (fun a b => swaps (f a) (f b)) _ _ hswap _ _ _ (ih hx₂ hy₂)

/-- An alignment from the second list to the first one. -/
theorem symm (h : Alignment swaps xs ys n) : Alignment (fun a b => swaps b a) ys xs n := by
  induction h with
  | nil => exact .nil
  | keep a _ ih => exact .keep a ih
  | replace a b _ ih => exact .replace b a ih
  | delete a _ ih => exact .insert a ih
  | insert b _ ih => exact .delete b ih
  | @swap a b hswap _ _ _ _ ih =>
    exact @Alignment.swap _ (fun a b => swaps b a) _ _ hswap _ _ _ ih

theorem tail_right (h : Alignment swaps xs (b :: ys) n) : ∃ m ≤ n + 1, Alignment swaps xs ys m := by
  obtain ⟨m, hle, hm⟩ := h.symm.tail_left
  exact ⟨m, hle, hm.symm⟩

/-- **Equal heads** may be kept. -/
theorem tail_of_eq (h : Alignment swaps (a :: xs) (a :: ys) n) : ∃ m ≤ n, Alignment swaps xs ys m := by
  cases h with
  | keep _ h => exact ⟨n, Nat.le_refl _, h⟩
  | @replace _ _ _ _ n h => exact ⟨n, Nat.le_succ _, h⟩
  | @delete _ _ _ n h => exact h.tail_right
  | @insert _ _ _ n h => exact h.tail_left
  | @swap _ _ hswap xs ys n h => exact ⟨n, Nat.le_succ _, .keep a h⟩

/-- **A row of the table is not better than the one before**: without the head of the second list and some
elements of the first one, an alignment costs no more. -/
theorem row (h : Alignment swaps xs (b :: ys) n) : ∃ xs₀, xs₀ <:+ xs ∧ ∃ m ≤ n, Alignment swaps xs₀ ys m := by
  generalize hl : b :: ys = l at h
  induction h with
  | nil => cases hl
  | @keep c xs _ n h _ =>
    obtain ⟨rfl, rfl⟩ := List.cons.inj hl
    exact ⟨xs, List.suffix_cons _ _, n, Nat.le_refl _, h⟩
  | @replace c d xs _ n h _ =>
    obtain ⟨rfl, rfl⟩ := List.cons.inj hl
    exact ⟨xs, List.suffix_cons _ _, n, Nat.le_succ _, h⟩
  | @delete c xs _ n h ih =>
    obtain ⟨xs₀, hsuffix, m, hle, hm⟩ := ih hl
    exact ⟨xs₀, hsuffix.trans (List.suffix_cons _ _), m, by omega, hm⟩
  | @insert d xs _ n h _ =>
    obtain ⟨rfl, rfl⟩ := List.cons.inj hl
    exact ⟨xs, List.suffix_rfl, n, Nat.le_succ _, h⟩
  | @swap c d hswap xs ys' n h _ =>
    obtain ⟨rfl, rfl⟩ := List.cons.inj hl
    exact ⟨b :: xs, List.suffix_cons _ _, n + 1, Nat.le_refl _, .replace b c h⟩

/-- An alignment without a cost keeps everything. -/
theorem eq_of_zero (h : Alignment swaps xs ys 0) : xs = ys := by
  generalize hn : 0 = n at h
  induction h with
  | nil => rfl
  | keep a _ ih => rw [ih hn]
  | _ => cases hn

end Alignment

/-- **The distance of two lists.** -/
noncomputable def distance (swaps : α → α → Prop) (xs ys : List α) : ℕ := sInf {n | Alignment swaps xs ys n}

theorem alignment_distance (swaps : α → α → Prop) (xs ys : List α) : Alignment swaps xs ys (distance swaps xs ys) :=
  Nat.sInf_mem ⟨_, Alignment.total swaps xs ys⟩

theorem Alignment.distance_le (h : Alignment swaps xs ys n) : distance swaps xs ys ≤ n := Nat.sInf_le h

/-- An alignment of the one pair costs no more than one of the other. -/
theorem distance_le_of {β : Type*} {swaps' : β → β → Prop} {xs' ys' : List β}
    (h : ∀ n, Alignment swaps' xs' ys' n → ∃ m ≤ n, Alignment swaps xs ys m) :
    distance swaps xs ys ≤ distance swaps' xs' ys' := by
  obtain ⟨m, hle, hm⟩ := h _ (alignment_distance swaps' xs' ys')
  exact hm.distance_le.trans hle

/-- **Lists that have the same swaps** have the same distance. -/
theorem distance_congr (hswaps : ∀ a b, [a, b] <:+: xs → [b, a] <:+: ys → (swaps a b ↔ swaps' a b)) :
    distance swaps xs ys = distance swaps' xs ys := by
  refine Nat.le_antisymm (distance_le_of fun n h => ⟨n, Nat.le_refl _, ?_⟩) (distance_le_of fun n h => ⟨n, Nat.le_refl _, ?_⟩)
  · exact h.of_swaps fun a b hx hy => (hswaps a b hx hy).mpr
  · exact h.of_swaps fun a b hx hy => (hswaps a b hx hy).mp

/-- The distance of the reversed lists. -/
theorem distance_reverse (hsymm : ∀ a b, swaps a b → swaps b a) (xs ys : List α) :
    distance swaps xs.reverse ys.reverse = distance swaps xs ys := by
  refine Nat.le_antisymm (distance_le_of fun n h => ⟨n, Nat.le_refl _, h.reverse hsymm⟩)
    (distance_le_of fun n h => ⟨n, Nat.le_refl _, ?_⟩)
  have hback := h.reverse hsymm
  rw [List.reverse_reverse, List.reverse_reverse] at hback
  exact hback

theorem distance_le_add (swaps : α → α → Prop) (xs ys : List α) : distance swaps xs ys ≤ xs.length + ys.length :=
  (Alignment.total swaps xs ys).distance_le

/-- A long second list is far away. -/
theorem length_le_distance (swaps : α → α → Prop) (xs ys : List α) : ys.length ≤ xs.length + distance swaps xs ys :=
  (alignment_distance swaps xs ys).length_le.2

/-- The distance of two lists that are read in another way. -/
theorem distance_map {β : Type*} {f : α → β} (hf : Function.Injective f) {swaps : β → β → Prop} (xs ys : List α) :
    distance swaps (xs.map f) (ys.map f) = distance (fun a b => swaps (f a) (f b)) xs ys := by
  refine Nat.le_antisymm (distance_le_of fun n h => ⟨n, Nat.le_refl _, ?_⟩)
    (distance_le_of fun n h => ⟨n, Nat.le_refl _, h.of_map hf⟩)
  induction h with
  | nil => exact .nil
  | keep a _ ih => exact .keep (f a) ih
  | replace a b _ ih => exact .replace (f a) (f b) ih
  | delete a _ ih => exact .delete (f a) ih
  | insert b _ ih => exact .insert (f b) ih
  | swap hswap _ ih => exact .swap hswap ih

/-- The distance from the second list to the first one. -/
theorem distance_comm (swaps : α → α → Prop) (xs ys : List α) :
    distance (fun a b => swaps b a) ys xs = distance swaps xs ys :=
  Nat.le_antisymm (distance_le_of fun n h => ⟨n, Nat.le_refl _, h.symm⟩)
    (distance_le_of fun n h => ⟨n, Nat.le_refl _, h.symm⟩)

/-! ## The cells of the table -/

/-- The first row. -/
@[simp]
theorem distance_nil_right (swaps : α → α → Prop) (xs : List α) : distance swaps xs [] = xs.length := by
  refine Nat.le_antisymm (Alignment.deletes swaps xs).distance_le ?_
  have hle := (alignment_distance swaps xs []).length_le.1
  rwa [List.length_nil, Nat.zero_add] at hle

/-- The first column. -/
@[simp]
theorem distance_nil_left (swaps : α → α → Prop) (ys : List α) : distance swaps [] ys = ys.length := by
  refine Nat.le_antisymm (Alignment.inserts swaps ys).distance_le ?_
  have hle := (alignment_distance swaps [] ys).length_le.2
  rwa [List.length_nil, Nat.zero_add] at hle

/-- **A cell of equal elements** is the one at its upper left. -/
theorem distance_cons_self (swaps : α → α → Prop) (a : α) (xs ys : List α) :
    distance swaps (a :: xs) (a :: ys) = distance swaps xs ys :=
  Nat.le_antisymm (distance_le_of fun n h => ⟨n, Nat.le_refl _, .keep a h⟩) (distance_le_of fun _ h => h.tail_of_eq)

/-- The least cost of a cell without a swap. -/
noncomputable def unswapped (swaps : α → α → Prop) (a b : α) (xs ys : List α) : ℕ :=
  min (min (distance swaps xs (b :: ys)) (distance swaps (a :: xs) ys)) (distance swaps xs ys) + 1

theorem distance_le_unswapped (swaps : α → α → Prop) (a b : α) (xs ys : List α) :
    distance swaps (a :: xs) (b :: ys) ≤ unswapped swaps a b xs ys := by
  have hdelete := ((alignment_distance swaps xs (b :: ys)).delete a).distance_le
  have hinsert := ((alignment_distance swaps (a :: xs) ys).insert b).distance_le
  have hreplace := ((alignment_distance swaps xs ys).replace a b).distance_le
  rw [unswapped]
  omega

/-- **A cell of different elements.** Its alignment does not keep them: it swaps them, or it costs as much as
the cell without a swap. -/
theorem unswapped_le_or (hne : a ≠ b) : unswapped swaps a b xs ys ≤ distance swaps (a :: xs) (b :: ys) ∨
    ∃ xs' ys', xs = b :: xs' ∧ ys = a :: ys' ∧ swaps a b ∧
      distance swaps xs' ys' + 1 ≤ distance swaps (a :: xs) (b :: ys) := by
  have h := alignment_distance swaps (a :: xs) (b :: ys)
  generalize distance swaps (a :: xs) (b :: ys) = n at h
  rw [unswapped]
  cases h with
  | keep _ h => exact absurd rfl hne
  | replace _ _ h =>
    have hle := h.distance_le
    exact .inl (by omega)
  | delete _ h =>
    have hle := h.distance_le
    exact .inl (by omega)
  | insert _ h =>
    have hle := h.distance_le
    exact .inl (by omega)
  | @swap _ _ hswap xs' ys' _ h =>
    have hle := h.distance_le
    exact .inr ⟨xs', ys', rfl, rfl, hswap, by omega⟩

/-- A cell whose elements are not swapped. -/
theorem distance_cons_cons (hne : a ≠ b) (hno : ∀ xs' ys', xs = b :: xs' → ys = a :: ys' → ¬ swaps a b) :
    distance swaps (a :: xs) (b :: ys) = unswapped swaps a b xs ys := by
  refine Nat.le_antisymm (distance_le_unswapped swaps a b xs ys) ?_
  rcases @unswapped_le_or _ swaps a b xs ys hne with hle | ⟨xs', ys', hx, hy, hswap, -⟩
  · exact hle
  · exact absurd hswap (hno xs' ys' hx hy)

/-- A cell whose elements may be swapped. -/
theorem distance_cons_cons_swap (hne : a ≠ b) (hswap : swaps a b) (xs ys : List α) :
    distance swaps (a :: b :: xs) (b :: a :: ys) =
      min (unswapped swaps a b (b :: xs) (a :: ys)) (distance swaps xs ys + 1) := by
  have hle := distance_le_unswapped swaps a b (b :: xs) (a :: ys)
  have hswapped := ((alignment_distance swaps xs ys).swap hswap).distance_le
  refine Nat.le_antisymm (Nat.le_min.mpr ⟨hle, hswapped⟩) ?_
  rcases @unswapped_le_or _ swaps a b (b :: xs) (a :: ys) hne with hle | ⟨xs', ys', hx, hy, -, hle⟩
  · exact (Nat.min_le_left _ _).trans hle
  · obtain ⟨-, rfl⟩ := List.cons.inj hx
    obtain ⟨-, rfl⟩ := List.cons.inj hy
    exact (Nat.min_le_right _ _).trans hle

/-- Neighbours that may not be swapped make lists differ by two at least. -/
theorem one_lt_distance_of_swapped (hne : a ≠ b) (hno : ¬ swaps a b) (before after : List α) :
    1 < distance swaps (before ++ a :: b :: after) (before ++ b :: a :: after) := by
  induction before with
  | nil =>
    have h := alignment_distance swaps (a :: b :: after) (b :: a :: after)
    rw [List.nil_append, List.nil_append]
    by_contra hle
    generalize distance swaps (a :: b :: after) (b :: a :: after) = n at h hle
    cases h with
    | keep _ h => exact hne rfl
    | @replace _ _ _ _ n h =>
      obtain rfl : n = 0 := by omega
      exact hne (List.cons.inj h.eq_of_zero).1.symm
    | @delete _ _ _ n h =>
      obtain rfl : n = 0 := by omega
      exact absurd (congrArg List.length (List.cons.inj h.eq_of_zero).2) (by simp)
    | @insert _ _ _ n h =>
      obtain rfl : n = 0 := by omega
      exact absurd (congrArg List.length (List.cons.inj h.eq_of_zero).2) (by simp)
    | @swap _ _ hswap _ _ _ h => exact hno hswap
  | cons c before ih =>
    rw [List.cons_append, List.cons_append, distance_cons_self]
    exact ih

/-- **Rows that are too far away** stay so: if all prefixes of the first text are farther than `max` from a prefix
of the second one, they are farther from all its extensions. -/
theorem lt_distance_append {max : ℕ} (hrow : ∀ xs₀, xs₀ <:+ xs → max < distance swaps xs₀ ys) (zs : List α) :
    ∀ xs₀, xs₀ <:+ xs → max < distance swaps xs₀ (zs ++ ys) := by
  induction zs with
  | nil => exact hrow
  | cons b zs ih =>
    intro xs₀ hsuffix
    obtain ⟨xs₁, hsuffix₁, m, hle, hm⟩ := (alignment_distance swaps xs₀ (b :: (zs ++ ys))).row
    exact (ih xs₁ (hsuffix₁.trans hsuffix)).trans_le (hm.distance_le.trans hle)

/-! ## Filling the table -/

/-- A cell is written. -/
def writeCell (table : ℕ → ℕ → ℕ) (x y value : ℕ) : ℕ → ℕ → ℕ := fun i j => if i = x ∧ j = y then value else table i j

/-- The first row is written. -/
theorem foldl_writeCell_row (table : ℕ → ℕ → ℕ) (value : ℕ → ℕ) (n i j : ℕ) :
    (List.range n).foldl (fun table x => writeCell table x 0 (value x)) table i j =
      if i < n ∧ j = 0 then value i else table i j := by
  induction n with
  | zero => exact (if_neg fun h => Nat.not_lt_zero _ h.1).symm
  | succ n ih =>
    rw [List.range_succ, List.foldl_append, List.foldl_cons, List.foldl_nil, writeCell, ih]
    by_cases hi : i = n
    · subst hi
      split_ifs <;> omega
    · split_ifs <;> omega

/-- The first column is written. -/
theorem foldl_writeCell_column (table : ℕ → ℕ → ℕ) (value : ℕ → ℕ) (n i j : ℕ) :
    (List.range n).foldl (fun table y => writeCell table 0 y (value y)) table i j =
      if i = 0 ∧ j < n then value j else table i j := by
  induction n with
  | zero => exact (if_neg fun h => Nat.not_lt_zero _ h.2).symm
  | succ n ih =>
    rw [List.range_succ, List.foldl_append, List.foldl_cons, List.foldl_nil, writeCell, ih]
    by_cases hj : j = n
    · subst hj
      split_ifs <;> omega
    · split_ifs <;> omega

/-- A loop that fills the row `y`: `cell` gives the value for a prefix, the last element first. -/
def fillRow (cell : List α → (ℕ → ℕ → ℕ) → ℕ) (y : ℕ) : List α → List α → (ℕ → ℕ → ℕ) → ℕ → ℕ → ℕ
  | _, [], table => table
  | xs, a :: rest, table => fillRow cell y (a :: xs) rest (writeCell table (xs.length + 1) y (cell (a :: xs) table))

/-- The row `j` has the distances of the prefixes of `X` from a prefix of the other list, the last element
first. -/
def Row (swaps : α → α → Prop) (X : List α) (table : ℕ → ℕ → ℕ) (j : ℕ) (ys : List α) : Prop :=
  ∀ i ≤ X.length, table i j = distance swaps (X.take i).reverse ys

/-- **The table has the rows of a prefix**, the last element first. -/
structure Rows (swaps : α → α → Prop) (X : List α) (height : ℕ) (table : ℕ → ℕ → ℕ) (ys : List α) : Prop where
  column : ∀ j ≤ height, table 0 j = j
  rows : ∀ ys', ys' <:+ ys → Row swaps X table ys'.length ys'

/-- **A cell is right**, if the cells around it are. -/
def CellRight (swaps : α → α → Prop) (X : List α) (b : α) (ys : List α) (cell : List α → (ℕ → ℕ → ℕ) → ℕ) : Prop :=
  ∀ (a : α) (xs rest : List α) (table : ℕ → ℕ → ℕ), X = xs.reverse ++ a :: rest →
    table xs.length (ys.length + 1) = distance swaps xs (b :: ys) → Row swaps X table ys.length ys →
      (∀ c ys', ys = c :: ys' → Row swaps X table ys'.length ys') →
        cell (a :: xs) table = distance swaps (a :: xs) (b :: ys)

variable {X ys' rest : List α} {table : ℕ → ℕ → ℕ} {cell : List α → (ℕ → ℕ → ℕ) → ℕ} {height i j y : ℕ}

theorem writeCell_of_ne {x : ℕ} (hne : ¬ (i = x ∧ j = y)) (value : ℕ) : writeCell table x y value i j = table i j :=
  if_neg hne

/-- The other rows stay. -/
theorem fillRow_of_ne (hne : j ≠ y) (rest : List α) (i : ℕ) : fillRow cell y xs rest table i j = table i j := by
  induction rest generalizing xs table with
  | nil => rfl
  | cons a rest ih =>
    rw [fillRow, ih]
    exact writeCell_of_ne (fun h => hne h.2) _

/-- The column of a prefix. -/
theorem Row.at_part (h : Row swaps X table j ys) (rest : List α) (hX : X = xs.reverse ++ rest) :
    table xs.length j = distance swaps xs ys := by
  subst hX
  have hle : xs.length ≤ (xs.reverse ++ rest).length := by
    rw [List.length_append, List.length_reverse]
    exact Nat.le_add_right _ _
  have htake : (xs.reverse ++ rest).take xs.length = xs.reverse := List.take_left' List.length_reverse
  rw [h _ hle, htake, List.reverse_reverse]

/-- **The loop fills its row**, if the two rows before are right. -/
theorem fillRow_row (hcell : CellRight swaps X b ys cell) (hX : X = xs.reverse ++ rest)
    (hup : Row swaps X table ys.length ys) (hup₂ : ∀ c ys', ys = c :: ys' → Row swaps X table ys'.length ys')
    (hdone : ∀ i ≤ xs.length, table i (ys.length + 1) = distance swaps (X.take i).reverse (b :: ys)) :
    Row swaps X (fillRow cell (ys.length + 1) xs rest table) (ys.length + 1) (b :: ys) := by
  induction rest generalizing xs table with
  | nil =>
    intro i hi
    rw [hX, List.append_nil, List.length_reverse] at hi
    exact hdone i hi
  | cons a rest ih =>
    have hX' : X = (a :: xs).reverse ++ rest := by
      rw [hX, List.reverse_cons, List.append_assoc]
      rfl
    have htake : (X.take (xs.length + 1)).reverse = a :: xs := by
      have htake : X.take (xs.length + 1) = (a :: xs).reverse := by
        rw [hX']
        exact List.take_left' List.length_reverse
      rw [htake, List.reverse_reverse]
    have hvalue : cell (a :: xs) table = distance swaps (a :: xs) (b :: ys) := by
      refine hcell a xs rest table hX ?_ hup hup₂
      rw [hdone _ (Nat.le_refl _), hX, List.take_left' List.length_reverse, List.reverse_reverse]
    have hkept : ∀ {ys' j}, j ≠ ys.length + 1 → Row swaps X table j ys' →
        Row swaps X (writeCell table (xs.length + 1) (ys.length + 1) (cell (a :: xs) table)) j ys' :=
      fun hne hrow i hi => (writeCell_of_ne (fun h => hne h.2) _).trans (hrow i hi)
    rw [fillRow]
    refine ih hX' (hkept (by omega) hup) (fun c ys' hy => hkept ?_ (hup₂ c ys' hy)) fun i hi => ?_
    · rw [hy, List.length_cons]
      omega
    · rcases Nat.lt_or_eq_of_le hi with hlt | rfl
      · exact (writeCell_of_ne (fun h => Nat.ne_of_lt hlt h.1) _).trans (hdone i (Nat.le_of_lt_succ hlt))
      · rw [List.length_cons, htake, ← hvalue]
        exact if_pos ⟨rfl, rfl⟩

theorem Rows.suffix (h : Rows swaps X height table ys) (hsuffix : ys' <:+ ys) : Rows swaps X height table ys' :=
  ⟨h.column, fun zs hz => h.rows zs (hz.trans hsuffix)⟩

/-- The table without rows. -/
theorem rows_nil (hcolumn : ∀ j ≤ height, table 0 j = j) (hrow : ∀ i ≤ X.length, table i 0 = i) :
    Rows swaps X height table [] := by
  refine ⟨hcolumn, fun ys' hy i hi => ?_⟩
  obtain rfl := List.suffix_nil.mp hy
  rw [distance_nil_right, List.length_reverse, List.length_take, Nat.min_eq_left hi]
  exact hrow i hi

/-- **One more row.** -/
theorem Rows.cons (h : Rows swaps X height table ys) (hlt : ys.length < height) (hcell : CellRight swaps X b ys cell) :
    Rows swaps X height (fillRow cell (ys.length + 1) [] X table) (b :: ys) := by
  have hself : Row swaps X (fillRow cell (ys.length + 1) [] X table) (ys.length + 1) (b :: ys) := by
    refine fillRow_row hcell rfl (h.rows ys List.suffix_rfl)
      (fun c ys' hy => h.rows ys' (hy ▸ List.suffix_cons c ys')) fun i hi => ?_
    obtain rfl := Nat.le_zero.mp hi
    rw [h.column _ hlt, List.take_zero, List.reverse_nil, distance_nil_left, List.length_cons]
  refine ⟨fun j hj => ?_, fun zs hz => ?_⟩
  · by_cases hj' : j = ys.length + 1
    · subst hj'
      rw [hself 0 (Nat.zero_le _), List.take_zero, List.reverse_nil, distance_nil_left, List.length_cons]
    · rw [fillRow_of_ne hj']
      exact h.column j hj
  · rcases List.suffix_cons_iff.mp hz with rfl | hz
    · exact hself
    · have hle := hz.length_le
      intro i hi
      rw [fillRow_of_ne (by omega)]
      exact h.rows zs hz i hi

end Groonga.Lib
