import Mathlib

/-!
# Areas and how often they cover a unit

A storage of numbered units is handed out in areas. That a collection of areas does not
overlap is said by counting: no unit is covered more than once. A count is a sum, so an
area that moves from one owner to another, is cut in two or is dropped only moves a
summand, and the ownership of a whole storage is kept by arithmetic.
-/

namespace Groonga.Lib

/-- The units from `start` on, `len` of them. -/
structure Area where
  start : ℕ
  len : ℕ
deriving DecidableEq, Repr

namespace Area

/-- The unit `u` lies in the area. -/
def Has (a : Area) (u : ℕ) : Prop := a.start ≤ u ∧ u < a.start + a.len

instance (a : Area) (u : ℕ) : Decidable (a.Has u) := inferInstanceAs (Decidable (_ ∧ _))

/-- No unit lies in both areas. -/
def Apart (a b : Area) : Prop := ∀ u, a.Has u → ¬ b.Has u

end Area

/-- How many of the areas a unit lies in. -/
def cover (as : List Area) (u : ℕ) : ℕ := as.countP (fun a => a.Has u)

@[simp] theorem cover_nil (u : ℕ) : cover [] u = 0 := rfl

theorem cover_cons (a : Area) (as : List Area) (u : ℕ) :
    cover (a :: as) u = cover as u + if a.Has u then 1 else 0 := by
  simp [cover, List.countP_cons]

@[simp] theorem cover_append (as bs : List Area) (u : ℕ) :
    cover (as ++ bs) u = cover as u + cover bs u := List.countP_append

theorem cover_pos {as : List Area} {a : Area} {u : ℕ} (ha : a ∈ as) (hu : a.Has u) :
    1 ≤ cover as u :=
  List.countP_pos_iff.mpr ⟨a, ha, by simpa using hu⟩

/-- An area cut in two covers what its parts cover. -/
theorem cover_cut (start m n u : ℕ) :
    cover [⟨start, m + n⟩] u = cover [⟨start, m⟩] u + cover [⟨start + m, n⟩] u := by
  have hor : (⟨start, m + n⟩ : Area).Has u ↔
      (⟨start, m⟩ : Area).Has u ∨ (⟨start + m, n⟩ : Area).Has u := by
    simp only [Area.Has]
    omega
  have hnot : ¬ ((⟨start, m⟩ : Area).Has u ∧ (⟨start + m, n⟩ : Area).Has u) := by
    simp only [Area.Has]
    omega
  simp only [cover_cons, cover_nil, hor]
  by_cases h₁ : (⟨start, m⟩ : Area).Has u <;> by_cases h₂ : (⟨start + m, n⟩ : Area).Has u <;>
    simp_all

theorem cover_flatMap {ι : Type} (is : List ι) (f : ι → List Area) (u : ℕ) :
    cover (is.flatMap f) u = (is.map (fun i => cover (f i) u)).sum := by
  induction is with
  | nil => rfl
  | cons i is ih => simp [List.flatMap_cons, ih]

theorem cover_flatMap_range (n : ℕ) (f : ℕ → List Area) (u : ℕ) :
    cover ((List.range n).flatMap f) u = ∑ k ∈ Finset.range n, cover (f k) u := by
  rw [cover_flatMap]
  rfl

/-! ## Areas that nothing covers twice -/

/-- Areas that cover no unit twice lie apart from each other. -/
theorem pairwise_apart_of_cover {as : List Area} (h : ∀ u, cover as u ≤ 1) :
    as.Pairwise Area.Apart := by
  induction as with
  | nil => exact List.Pairwise.nil
  | cons a as ih =>
    refine List.Pairwise.cons ?_ (ih fun u => ?_)
    · intro b hb u hau hbu
      have h1 := h u
      rw [cover_cons, if_pos hau] at h1
      have h2 := cover_pos hb hbu
      omega
    · have h1 := h u
      rw [cover_cons] at h1
      omega

theorem apart_of_cover {as bs : List Area} (h : ∀ u, cover as u + cover bs u ≤ 1) {a b : Area}
    (ha : a ∈ as) (hb : b ∈ bs) : a.Apart b := by
  intro u hau hbu
  have h1 := cover_pos ha hau
  have h2 := cover_pos hb hbu
  have h3 := h u
  omega

/-! ## Sums in which one summand changes -/

/-- Two sums whose terms agree away from `k` differ by their terms at `k`. -/
theorem sum_exchange {n k : ℕ} {f g : ℕ → ℕ} (hk : k < n) (h : ∀ j, j ≠ k → f j = g j) :
    (∑ j ∈ Finset.range n, f j) + g k = (∑ j ∈ Finset.range n, g j) + f k := by
  have hmem : k ∈ Finset.range n := Finset.mem_range.mpr hk
  rw [← Finset.sum_erase_add _ f hmem, ← Finset.sum_erase_add _ g hmem,
    Finset.sum_congr rfl fun j hj => h j (Finset.ne_of_mem_erase hj)]
  ring

theorem sum_map_exchange {α : Type} {l : List α} {a : α} {f g : α → ℕ} (hl : l.Nodup)
    (ha : a ∈ l) (h : ∀ b, b ≠ a → f b = g b) :
    (l.map f).sum + g a = (l.map g).sum + f a := by
  obtain ⟨l₁, l₂, rfl⟩ := List.append_of_mem ha
  have hne : ∀ b ∈ l₁ ++ l₂, f b = g b := fun b hb => h b fun hba =>
    (List.nodup_middle.mp hl).notMem (hba ▸ hb)
  have h₁ : l₁.map f = l₁.map g :=
    List.map_congr_left fun b hb => hne b (List.mem_append_left _ hb)
  have h₂ : l₂.map f = l₂.map g :=
    List.map_congr_left fun b hb => hne b (List.mem_append_right _ hb)
  simp only [List.map_append, List.map_cons, List.sum_append, List.sum_cons, h₁, h₂]
  ring

theorem le_sum_range {n k : ℕ} (hk : k < n) (f : ℕ → ℕ) :
    f k ≤ ∑ j ∈ Finset.range n, f j :=
  Finset.single_le_sum (fun j _ => Nat.zero_le (f j)) (Finset.mem_range.mpr hk)

theorem add_le_sum_range {n j k : ℕ} (hj : j < n) (hk : k < n) (hne : j ≠ k) (f : ℕ → ℕ) :
    f j + f k ≤ ∑ i ∈ Finset.range n, f i := by
  have hmem : k ∈ Finset.range n := Finset.mem_range.mpr hk
  have hmem' : j ∈ (Finset.range n).erase k :=
    Finset.mem_erase.mpr ⟨hne, Finset.mem_range.mpr hj⟩
  rw [← Finset.sum_erase_add _ f hmem]
  exact Nat.add_le_add_right (Finset.single_le_sum (fun i _ => Nat.zero_le (f i)) hmem') _

end Groonga.Lib
