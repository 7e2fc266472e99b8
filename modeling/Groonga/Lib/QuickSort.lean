import Mathlib

/-!
# Sorting a window of an array

A quicksort for those who need only the positions of a window. The pivot is the middle one of three
items, and the other two stand at the ends: the scans from both sides have no bound of their own,
because they stop there. A part that has no position of the window is left as it is.

The order is given by `gt`, which says that an item belongs behind another one. Items may be tied.
-/

namespace Groonga.Lib

variable {α : Type}

/-! ## Orders -/

/-- **A strict weak order**: being tied is transitive. -/
structure StrictWeak (gt : α → α → Bool) : Prop where
  asymm : ∀ x y, gt x y = true → gt y x = false
  trans : ∀ x y z, gt x y = false → gt y z = false → gt x z = false

variable {gt : α → α → Bool}

theorem StrictWeak.irrefl (hgt : StrictWeak gt) (x : α) : gt x x = false := by
  cases hx : gt x x with
  | false => rfl
  | true =>
    have hx' := hgt.asymm x x hx
    rw [hx] at hx'
    cases hx'

/-- The order of what a function gives. -/
theorem StrictWeak.comap {β : Type} (hgt : StrictWeak gt) (f : β → α) : StrictWeak fun x y => gt (f x) (f y) :=
  ⟨fun x y => hgt.asymm (f x) (f y), fun x y z => hgt.trans (f x) (f y) (f z)⟩

/-- The other way around. -/
theorem StrictWeak.flip (hgt : StrictWeak gt) : StrictWeak fun x y => gt y x :=
  ⟨fun x y => hgt.asymm y x, fun x y z hxy hyz => hgt.trans z y x hyz hxy⟩

/-- The order of a linear order. -/
theorem strictWeak_gt {β : Type} [LinearOrder β] (f : α → β) {dec : ∀ x y, Decidable (f y < f x)} :
    StrictWeak fun x y => decide (f y < f x) := by
  refine ⟨fun x y h => ?_, fun x y z hxy hyz => ?_⟩
  · exact decide_eq_false (not_lt_of_gt (of_decide_eq_true h))
  · exact decide_eq_false (not_lt.mpr ((not_lt.mp (of_decide_eq_false hxy)).trans
      (not_lt.mp (of_decide_eq_false hyz))))

/-! ## Arrays -/

/-- Two items are swapped. -/
def swapAt (a : ℕ → α) (i j : ℕ) : ℕ → α := Function.update (Function.update a i (a j)) j (a i)

variable {a a' a'' : ℕ → α} {lo hi i j b c e : ℕ}

theorem swapAt_eq (a : ℕ → α) (i j : ℕ) : swapAt a i j = a ∘ Equiv.swap i j := by
  rw [Equiv.comp_swap_eq_update, swapAt]
  by_cases hij : i = j
  · subst hij
    rfl
  · exact Function.update_comm hij _ _ _

@[simp] theorem swapAt_left (a : ℕ → α) (i j : ℕ) : swapAt a i j i = a j := by
  rw [swapAt_eq, Function.comp_apply, Equiv.swap_apply_left]

@[simp] theorem swapAt_right (a : ℕ → α) (i j : ℕ) : swapAt a i j j = a i := by
  rw [swapAt_eq, Function.comp_apply, Equiv.swap_apply_right]

theorem swapAt_of_ne {k : ℕ} (hi : k ≠ i) (hj : k ≠ j) : swapAt a i j k = a k := by
  rw [swapAt_eq, Function.comp_apply, Equiv.swap_apply_of_ne_of_ne hi hj]

/-- **The items from `lo` to `hi` are arranged anew.** -/
def Rearranged (lo hi : ℕ) (a a' : ℕ → α) : Prop :=
  ∃ σ : Equiv.Perm ℕ, (∀ i, i < lo ∨ hi < i → σ i = i) ∧ a' = a ∘ σ

theorem Rearranged.refl (lo hi : ℕ) (a : ℕ → α) : Rearranged lo hi a a :=
  ⟨1, fun _ _ => rfl, rfl⟩

theorem Rearranged.trans (h : Rearranged lo hi a a') (h' : Rearranged lo hi a' a'') : Rearranged lo hi a a'' := by
  obtain ⟨σ, hσ, rfl⟩ := h
  obtain ⟨τ, hτ, rfl⟩ := h'
  refine ⟨τ.trans σ, fun i hi => ?_, rfl⟩
  rw [Equiv.trans_apply, hτ i hi, hσ i hi]

theorem rearranged_swapAt (a : ℕ → α) (hi₁ : lo ≤ i) (hi₂ : i ≤ hi) (hj₁ : lo ≤ j) (hj₂ : j ≤ hi) :
    Rearranged lo hi a (swapAt a i j) :=
  ⟨Equiv.swap i j, fun _ _ => Equiv.swap_apply_of_ne_of_ne (by omega) (by omega), swapAt_eq a i j⟩

/-- Arranging fewer items. -/
theorem Rearranged.mono {lo' hi' : ℕ} (h : Rearranged lo' hi' a a') (hlo : lo ≤ lo') (hhi : hi' ≤ hi) :
    Rearranged lo hi a a' := by
  obtain ⟨σ, hσ, rfl⟩ := h
  exact ⟨σ, fun i hi => hσ i (by omega), rfl⟩

/-- The items outside stay. -/
theorem Rearranged.outside (h : Rearranged lo hi a a') (hi : i < lo ∨ hi < i) : a' i = a i := by
  obtain ⟨σ, hσ, rfl⟩ := h
  rw [Function.comp_apply, hσ i hi]

/-- Each item was there before. -/
theorem Rearranged.exists (h : Rearranged lo hi a a') (hlo : lo ≤ i) (hhi : i ≤ hi) :
    ∃ j, lo ≤ j ∧ j ≤ hi ∧ a' i = a j := by
  obtain ⟨σ, hσ, rfl⟩ := h
  refine ⟨σ i, ?_, ?_, rfl⟩
  · by_contra hlt
    have hfix : σ (σ i) = σ i := hσ _ (by omega)
    have := σ.injective hfix
    omega
  · by_contra hlt
    have hfix : σ (σ i) = σ i := hσ _ (by omega)
    have := σ.injective hfix
    omega

/-- What all items have they have after they were arranged anew. -/
theorem Rearranged.forall {P : α → Prop} (h : Rearranged lo hi a a') (hP : ∀ i, lo ≤ i → i ≤ hi → P (a i)) :
    ∀ i, lo ≤ i → i ≤ hi → P (a' i) := by
  intro i hlo hhi
  obtain ⟨j, hj₁, hj₂, heq⟩ := h.exists hlo hhi
  rw [heq]
  exact hP j hj₁ hj₂

/-! ## Partitions -/

/-- `do b++ while` the pivot belongs behind the item. The fuel is the number of items that are left:
without fuel the scan leaves the array. -/
def scanUp (gt : α → α → Bool) (pivot : α) (a : ℕ → α) : ℕ → ℕ → Option ℕ
  | 0, _ => none
  | fuel + 1, b => if gt pivot (a (b + 1)) then scanUp gt pivot a fuel (b + 1) else some (b + 1)

/-- `do e-- while` the item belongs behind the pivot. -/
def scanDown (gt : α → α → Bool) (pivot : α) (a : ℕ → α) : ℕ → ℕ → Option ℕ
  | 0, _ => none
  | fuel + 1, e => if gt (a (e - 1)) pivot then scanDown gt pivot a fuel (e - 1) else some (e - 1)

/-- The loop of a partition: where the pivot ends. -/
def partLoop (gt : α → α → Bool) (lo hi c : ℕ) : ℕ → ℕ → ℕ → (ℕ → α) → Option (ℕ × (ℕ → α))
  | 0, _, _, _ => none
  | fuel + 1, b, e, a =>
    (scanUp gt (a c) a (hi - b) b).bind fun b =>
      (scanDown gt (a c) a (e - lo) e).bind fun e =>
        if e ≤ b then some (e, swapAt a c e) else partLoop gt lo hi c fuel b e (swapAt a b e)

/-- The two ends and the middle are sorted. Then the pivot goes behind the first item, and the items
are parted. Nothing is parted when there are at most three items. -/
def part (gt : α → α → Bool) (a : ℕ → α) (lo hi : ℕ) : Option (Option ℕ × (ℕ → α)) :=
  let d := hi - lo
  let a := if gt (a lo) (a hi) then swapAt a lo hi else a
  if d < 2 then some (none, a)
  else
    let c := lo + d / 2
    let a :=
      if gt (a lo) (a c) then swapAt a lo c
      else if gt (a c) (a hi) then swapAt a c hi
      else a
    if d < 3 then some (none, a)
    else (partLoop gt lo hi (lo + 1) d (lo + 1) hi (swapAt a (lo + 1) c)).map fun r => (some r.1, r.2)

/-- **The scan upwards** stops at the sentinel at the latest. -/
theorem scanUp_spec {pivot : α} (fuel : ℕ) (hbe : b < e) (hsentinel : gt pivot (a e) = false) (hfuel : e ≤ b + fuel) :
    ∃ b', scanUp gt pivot a fuel b = some b' ∧ b < b' ∧ b' ≤ e ∧ gt pivot (a b') = false ∧
      ∀ i, b < i → i < b' → gt pivot (a i) = true := by
  induction fuel generalizing b with
  | zero => omega
  | succ fuel ih =>
    rw [scanUp]
    by_cases hgt : gt pivot (a (b + 1)) = true
    · have hne : b + 1 ≠ e := by
        rintro rfl
        rw [hsentinel] at hgt
        cases hgt
      obtain ⟨b', heq, hlt, hle, hstop, hbetween⟩ := ih (by omega) (by omega : e ≤ b + 1 + fuel)
      rw [if_pos hgt]
      refine ⟨b', heq, by omega, hle, hstop, fun i hi₁ hi₂ => ?_⟩
      rcases Nat.eq_or_lt_of_le (Nat.succ_le_of_lt hi₁) with rfl | hlt'
      · exact hgt
      · exact hbetween i hlt' hi₂
    · rw [if_neg hgt]
      refine ⟨b + 1, rfl, Nat.lt_succ_self b, by omega, Bool.eq_false_of_not_eq_true hgt, fun i hi₁ hi₂ => ?_⟩
      omega

/-- **The scan downwards** stops at the sentinel at the latest. -/
theorem scanDown_spec {pivot : α} (fuel : ℕ) (hbe : b < e) (hsentinel : gt (a b) pivot = false)
    (hfuel : e ≤ b + fuel) :
    ∃ e', scanDown gt pivot a fuel e = some e' ∧ b ≤ e' ∧ e' < e ∧ gt (a e') pivot = false ∧
      ∀ i, e' < i → i < e → gt (a i) pivot = true := by
  induction fuel generalizing e with
  | zero => omega
  | succ fuel ih =>
    rw [scanDown]
    by_cases hgt : gt (a (e - 1)) pivot = true
    · have hne : e - 1 ≠ b := by
        intro heq
        rw [heq, hsentinel] at hgt
        cases hgt
      obtain ⟨e', heq, hle, hlt, hstop, hbetween⟩ := ih (by omega) (by omega : e - 1 ≤ b + fuel)
      rw [if_pos hgt]
      refine ⟨e', heq, hle, by omega, hstop, fun i hi₁ hi₂ => ?_⟩
      by_cases hlast : i = e - 1
      · rw [hlast]
        exact hgt
      · exact hbetween i hi₁ (by omega)
    · rw [if_neg hgt]
      refine ⟨e - 1, rfl, by omega, by omega, Bool.eq_false_of_not_eq_true hgt, fun i hi₁ hi₂ => ?_⟩
      omega

/-- **The items are parted** at a position: those before it do not belong behind it, and it does not
belong behind the others. -/
structure Parted (gt : α → α → Bool) (a : ℕ → α) (lo hi c : ℕ) : Prop where
  ge_lo : lo ≤ c
  le_hi : c ≤ hi
  before : ∀ i, lo ≤ i → i < c → gt (a i) (a c) = false
  behind : ∀ i, c < i → i ≤ hi → gt (a c) (a i) = false

/-- **The loop of a partition.** -/
theorem partLoop_spec (hgt : StrictWeak gt) (fuel : ℕ) (hloc : lo ≤ c) (hcb : c ≤ b) (hbe : b < e) (hehi : e ≤ hi)
    (hfuel : e ≤ b + fuel) (hleft : ∀ i, lo ≤ i → i ≤ b → gt (a i) (a c) = false)
    (hright : ∀ i, e ≤ i → i ≤ hi → gt (a c) (a i) = false) :
    ∃ e' a', partLoop gt lo hi c fuel b e a = some (e', a') ∧ Rearranged lo hi a a' ∧ c ≤ e' ∧ e' < e ∧
      Parted gt a' lo hi e' := by
  induction fuel generalizing a b e with
  | zero => omega
  | succ fuel ih =>
    obtain ⟨b', hup, hbb', hb'e, hstopUp, hbetweenUp⟩ :=
      scanUp_spec (hi - b) hbe (hright e (Nat.le_refl e) hehi) (by omega)
    obtain ⟨e', hdown, hbe', he'e, hstopDown, hbetweenDown⟩ :=
      scanDown_spec (e - lo) hbe (hleft b (hloc.trans hcb) (Nat.le_refl b)) (by omega)
    have hleft' : ∀ i, lo ≤ i → i < b' → gt (a i) (a c) = false := by
      intro i hi₁ hi₂
      by_cases hib : i ≤ b
      · exact hleft i hi₁ hib
      · exact hgt.asymm _ _ (hbetweenUp i (by omega) hi₂)
    have hright' : ∀ i, e' < i → i ≤ hi → gt (a c) (a i) = false := by
      intro i hi₁ hi₂
      by_cases hie : e ≤ i
      · exact hright i hie hi₂
      · exact hgt.asymm _ _ (hbetweenDown i hi₁ (by omega))
    rw [partLoop, hup, Option.bind_some, hdown, Option.bind_some]
    by_cases hcross : e' ≤ b'
    · -- the pivot goes between the two parts
      rw [if_pos hcross]
      refine ⟨e', _, rfl, rearranged_swapAt a hloc (by omega) (by omega) (by omega), by omega, he'e,
        by omega, by omega, fun i hi₁ hi₂ => ?_, fun i hi₁ hi₂ => ?_⟩
      · rw [swapAt_right]
        by_cases hic : i = c
        · rw [hic, swapAt_left]
          exact hstopDown
        · rw [swapAt_of_ne hic (by omega)]
          exact hleft' i hi₁ (by omega)
      · rw [swapAt_right, swapAt_of_ne (by omega) (by omega)]
        exact hright' i hi₁ hi₂
    · rw [if_neg hcross]
      have hpivot : swapAt a b' e' c = a c := swapAt_of_ne (by omega) (by omega)
      obtain ⟨e'', a'', heq, hre, hce, hlt, hparted⟩ := ih (a := swapAt a b' e') (b := b') (e := e') (by omega)
        (by omega) (by omega) (by omega) (fun i hi₁ hi₂ => by
          rw [hpivot]
          by_cases hib : i = b'
          · rw [hib, swapAt_left]
            exact hstopDown
          · rw [swapAt_of_ne hib (by omega)]
            exact hleft' i hi₁ (by omega)) (fun i hi₁ hi₂ => by
          rw [hpivot]
          by_cases hie : i = e'
          · rw [hie, swapAt_right]
            exact hstopUp
          · rw [swapAt_of_ne (by omega) hie]
            exact hright' i (by omega) hi₂)
      refine ⟨e'', a'', heq, ?_, hce, by omega, hparted⟩
      exact (rearranged_swapAt a (by omega) (by omega) (by omega) (by omega)).trans hre

/-- Three items in order. -/
theorem median_spec (hgt : StrictWeak gt) (hloc : lo < c) (hchi : c < hi) (hends : gt (a lo) (a hi) = false)
    (heq : a' = if gt (a lo) (a c) then swapAt a lo c else if gt (a c) (a hi) then swapAt a c hi else a) :
    Rearranged lo hi a a' ∧ gt (a' lo) (a' c) = false ∧ gt (a' c) (a' hi) = false := by
  split_ifs at heq with hfirst hlast
  · rw [heq]
    refine ⟨rearranged_swapAt a (Nat.le_refl _) (by omega) (by omega) (by omega), ?_, ?_⟩
    · rw [swapAt_left, swapAt_right]
      exact hgt.asymm _ _ hfirst
    · rw [swapAt_right, swapAt_of_ne (by omega) (by omega)]
      exact hends
  · rw [heq]
    refine ⟨rearranged_swapAt a (by omega) (by omega) (by omega) (Nat.le_refl _), ?_, ?_⟩
    · rw [swapAt_left, swapAt_of_ne (by omega) (by omega)]
      exact hends
    · rw [swapAt_left, swapAt_right]
      exact hgt.asymm _ _ hlast
  · rw [heq]
    exact ⟨.refl _ _ _, Bool.eq_false_of_not_eq_true hfirst, Bool.eq_false_of_not_eq_true hlast⟩

/-- **A partition**: the items are parted at a position between the ends, or all of them are sorted. -/
theorem part_spec (hgt : StrictWeak gt) (hlt : lo < hi) :
    ∃ r a', part gt a lo hi = some (r, a') ∧ Rearranged lo hi a a' ∧
      ((r = none ∧ ∀ i j, lo ≤ i → i < j → j ≤ hi → gt (a' i) (a' j) = false) ∨
        ∃ c, r = some c ∧ lo < c ∧ c < hi ∧ Parted gt a' lo hi c) := by
  rw [part]
  obtain ⟨a₁, ha₁⟩ : ∃ a₁, a₁ = if gt (a lo) (a hi) then swapAt a lo hi else a := ⟨_, rfl⟩
  have hre₁ : Rearranged lo hi a a₁ := by
    rw [ha₁]
    split_ifs
    · exact rearranged_swapAt a (Nat.le_refl _) (by omega) (by omega) (Nat.le_refl _)
    · exact .refl _ _ _
  have hends : gt (a₁ lo) (a₁ hi) = false := by
    rw [ha₁]
    split_ifs with hswap
    · rw [swapAt_left, swapAt_right]
      exact hgt.asymm _ _ hswap
    · exact Bool.eq_false_of_not_eq_true hswap
  simp only [← ha₁]
  by_cases htwo : hi - lo < 2
  · rw [if_pos htwo]
    refine ⟨none, a₁, rfl, hre₁, .inl ⟨rfl, fun i j hi₁ hij hj₂ => ?_⟩⟩
    obtain rfl : i = lo := by omega
    obtain rfl : j = hi := by omega
    exact hends
  · rw [if_neg htwo]
    have hloc : lo < lo + (hi - lo) / 2 := by omega
    have hchi : lo + (hi - lo) / 2 < hi := by omega
    obtain ⟨a₂, ha₂⟩ : ∃ a₂, a₂ = if gt (a₁ lo) (a₁ (lo + (hi - lo) / 2)) then swapAt a₁ lo (lo + (hi - lo) / 2)
      else if gt (a₁ (lo + (hi - lo) / 2)) (a₁ hi) then swapAt a₁ (lo + (hi - lo) / 2) hi else a₁ := ⟨_, rfl⟩
    obtain ⟨hre₂, hfirst, hlast⟩ := median_spec hgt hloc hchi hends ha₂
    simp only [← ha₂]
    by_cases hthree : hi - lo < 3
    · rw [if_pos hthree]
      refine ⟨none, a₂, rfl, hre₁.trans hre₂, .inl ⟨rfl, fun i j hi₁ hij hj₂ => ?_⟩⟩
      have hmiddle : lo + (hi - lo) / 2 = lo + 1 := by omega
      rw [hmiddle] at hfirst hlast
      by_cases hilo : i = lo
      · by_cases hjhi : j = hi
        · rw [hilo, hjhi]
          exact hgt.trans _ _ _ hfirst hlast
        · rw [hilo, show j = lo + 1 by omega]
          exact hfirst
      · rw [show i = lo + 1 by omega, show j = hi by omega]
        exact hlast
    · rw [if_neg hthree]
      -- the pivot goes behind the first item, the ends are the sentinels
      have hre₃ : Rearranged lo hi a₂ (swapAt a₂ (lo + 1) (lo + (hi - lo) / 2)) :=
        rearranged_swapAt a₂ (by omega) (by omega) (by omega) (by omega)
      obtain ⟨e', a', heq, hre, hce, hehi, hparted⟩ := partLoop_spec hgt (a := swapAt a₂ (lo + 1) (lo + (hi - lo) / 2))
        (hi - lo) (Nat.le_succ lo) (Nat.le_refl (lo + 1)) (show lo + 1 < hi by omega) (Nat.le_refl hi) (by omega) (fun i hi₁ hi₂ => by
          rw [swapAt_left]
          by_cases hilo : i = lo
          · rw [hilo, swapAt_of_ne (by omega) (by omega)]
            exact hfirst
          · rw [show i = lo + 1 by omega, swapAt_left]
            exact hgt.irrefl _) (fun i hi₁ hi₂ => by
          rw [show i = hi by omega, swapAt_left, swapAt_of_ne (by omega) (by omega)]
          exact hlast)
      rw [heq]
      exact ⟨some e', a', rfl, ((hre₁.trans hre₂).trans hre₃).trans hre, .inr ⟨e', rfl, by omega, hehi, hparted⟩⟩

/-! ## Sorting -/

/-- The two parts beside a position are sorted, those with a position of the window. The window is
from `start` to before `stop`, counted from the first item. -/
def sortBoth (sort : ℕ → ℕ → ℤ → ℤ → (ℕ → α) → Option (ℕ → α)) (lo hi c : ℕ) (start stop : ℤ) (a : ℕ → α) :
    Option (ℕ → α) :=
  let m : ℤ := c - lo + 1
  (if start < m - 1 then sort lo (c - 1) start stop a else some a).bind fun a =>
    if m < stop then sort (c + 1) hi (start - m) (stop - m) a else some a

/-- The items are parted, and then the two parts are sorted. -/
def windowSort (gt : α → α → Bool) : ℕ → ℕ → ℕ → ℤ → ℤ → (ℕ → α) → Option (ℕ → α)
  | 0, _, _, _, _, _ => none
  | fuel + 1, lo, hi, start, stop, a =>
    if lo < hi then
      (part gt a lo hi).bind fun r =>
        match r.1 with
        | none => some r.2
        | some c => sortBoth (windowSort gt fuel) lo hi c start stop r.2
    else some a

/-- A position of the window. -/
def InWindow (lo : ℕ) (start stop : ℤ) (i : ℕ) : Prop := start ≤ (i : ℤ) - lo ∧ (i : ℤ) - lo < stop

/-- **The window is sorted**: an item in it does not belong behind any item that follows, and no item
before it belongs behind it. -/
def WindowSorted (gt : α → α → Bool) (a : ℕ → α) (lo hi : ℕ) (start stop : ℤ) : Prop :=
  ∀ i j, lo ≤ i → i < j → j ≤ hi → InWindow lo start stop i ∨ InWindow lo start stop j → gt (a i) (a j) = false

/-- What a sort does to some of the items. -/
def Sorts (gt : α → α → Bool) (sort : ℕ → ℕ → ℤ → ℤ → (ℕ → α) → Option (ℕ → α)) (lo hi : ℕ) : Prop :=
  ∀ start stop a, ∃ a', sort lo hi start stop a = some a' ∧ (lo < hi → Rearranged lo hi a a') ∧ (hi ≤ lo → a' = a) ∧
    WindowSorted gt a' lo hi start stop

/-- **The part before a position** is sorted, if it has a position of the window. -/
theorem sortBefore_spec {sort : ℕ → ℕ → ℤ → ℤ → (ℕ → α) → Option (ℕ → α)} (start stop : ℤ) (hloc : lo ≤ c)
    (hchi : c ≤ hi) (hsort : Sorts gt sort lo (c - 1)) (hparted : ∀ i, lo ≤ i → i < c → gt (a i) (a c) = false) :
    ∃ a', (if start < (c : ℤ) - lo + 1 - 1 then sort lo (c - 1) start stop a else some a) = some a' ∧
      Rearranged lo hi a a' ∧ (∀ i, c ≤ i → a' i = a i) ∧ (∀ i, lo ≤ i → i < c → gt (a' i) (a c) = false) ∧
        ∀ i j, lo ≤ i → i < j → j < c → InWindow lo start stop i ∨ InWindow lo start stop j →
          gt (a' i) (a' j) = false := by
  by_cases hwindow : start < (c : ℤ) - lo + 1 - 1
  · obtain ⟨a', heq, hre, hsame, hsorted⟩ := hsort start stop a
    rw [if_pos hwindow]
    refine ⟨a', heq, ?_, fun i hi => ?_, fun i hi₁ hi₂ => ?_, fun i j hi₁ hij hjc => ?_⟩
    · by_cases hmany : lo < c - 1
      · exact (hre hmany).mono (Nat.le_refl _) (by omega)
      · rw [hsame (by omega)]
        exact .refl _ _ _
    · by_cases hmany : lo < c - 1
      · exact (hre hmany).outside (.inr (by omega))
      · rw [hsame (by omega)]
    · by_cases hmany : lo < c - 1
      · exact (hre hmany).forall (P := fun x => gt x (a c) = false) (fun i hi₁ hi₂ => hparted i hi₁ (by omega)) i hi₁
          (by omega)
      · rw [hsame (by omega)]
        exact hparted i hi₁ hi₂
    · exact hsorted i j hi₁ hij (by omega)
  · rw [if_neg hwindow]
    refine ⟨a, rfl, .refl _ _ _, fun _ _ => rfl, hparted, fun i j hi₁ hij hjc hin => ?_⟩
    rcases hin with ⟨hfrom, -⟩ | ⟨hfrom, -⟩ <;> omega

/-- **The part behind a position** is sorted, if it has a position of the window. -/
theorem sortBehind_spec {sort : ℕ → ℕ → ℤ → ℤ → (ℕ → α) → Option (ℕ → α)} (start stop : ℤ) (hloc : lo ≤ c)
    (hchi : c ≤ hi) (hsort : Sorts gt sort (c + 1) hi) (hparted : ∀ i, c < i → i ≤ hi → gt (a c) (a i) = false) :
    ∃ a', (if (c : ℤ) - lo + 1 < stop then sort (c + 1) hi (start - (c - lo + 1)) (stop - (c - lo + 1)) a
        else some a) = some a' ∧
      Rearranged lo hi a a' ∧ (∀ i, i ≤ c → a' i = a i) ∧ (∀ i, c < i → i ≤ hi → gt (a c) (a' i) = false) ∧
        ∀ i j, c < i → i < j → j ≤ hi → InWindow lo start stop i ∨ InWindow lo start stop j →
          gt (a' i) (a' j) = false := by
  by_cases hwindow : (c : ℤ) - lo + 1 < stop
  · obtain ⟨a', heq, hre, hsame, hsorted⟩ := hsort (start - (c - lo + 1)) (stop - (c - lo + 1)) a
    have hin : ∀ i, InWindow lo start stop i →
        InWindow (c + 1) (start - (c - lo + 1)) (stop - (c - lo + 1)) i := by
      rintro i ⟨hfrom, hto⟩
      exact ⟨by push_cast; omega, by push_cast; omega⟩
    rw [if_pos hwindow]
    refine ⟨a', heq, ?_, fun i hic => ?_, fun i hi₁ hi₂ => ?_, fun i j hi₁ hij hjc h => ?_⟩
    · by_cases hmany : c + 1 < hi
      · exact (hre hmany).mono (by omega) (Nat.le_refl _)
      · rw [hsame (by omega)]
        exact .refl _ _ _
    · by_cases hmany : c + 1 < hi
      · exact (hre hmany).outside (.inl (by omega))
      · rw [hsame (by omega)]
    · by_cases hmany : c + 1 < hi
      · exact (hre hmany).forall (P := fun x => gt (a c) x = false) (fun i hi₁ hi₂ => hparted i (by omega) hi₂) i
          (by omega) hi₂
      · rw [hsame (by omega)]
        exact hparted i hi₁ hi₂
    · exact hsorted i j (by omega) hij hjc (h.imp (hin i) (hin j))
  · rw [if_neg hwindow]
    refine ⟨a, rfl, .refl _ _ _, fun _ _ => rfl, hparted, fun i j hi₁ hij hjc hin => ?_⟩
    rcases hin with ⟨-, hto⟩ | ⟨-, hto⟩ <;> omega

/-- **The two parts** are sorted when a sort sorts each of them. -/
theorem sortBoth_spec (hgt : StrictWeak gt) {sort : ℕ → ℕ → ℤ → ℤ → (ℕ → α) → Option (ℕ → α)} (start stop : ℤ)
    (hparted : Parted gt a lo hi c) (hbefore : Sorts gt sort lo (c - 1)) (hbehind : Sorts gt sort (c + 1) hi) :
    ∃ a', sortBoth sort lo hi c start stop a = some a' ∧ Rearranged lo hi a a' ∧
      WindowSorted gt a' lo hi start stop := by
  obtain ⟨a₁, heq₁, hre₁, hsame₁, hle₁, hsorted₁⟩ :=
    sortBefore_spec start stop hparted.ge_lo hparted.le_hi hbefore hparted.before
  have hc : a₁ c = a c := hsame₁ c (Nat.le_refl c)
  obtain ⟨a₂, heq₂, hre₂, hsame₂, hge₂, hsorted₂⟩ :=
    sortBehind_spec (a := a₁) start stop hparted.ge_lo hparted.le_hi hbehind
      (fun i hi₁ hi₂ => by
        rw [hc, hsame₁ i (Nat.le_of_lt hi₁)]
        exact hparted.behind i hi₁ hi₂)
  rw [sortBoth, heq₁, Option.bind_some]
  refine ⟨a₂, heq₂, hre₁.trans hre₂, fun i j hi₁ hij hj₂ hin => ?_⟩
  by_cases hjc : j < c
  · rw [hsame₂ i (by omega), hsame₂ j (by omega)]
    exact hsorted₁ i j hi₁ hij hjc hin
  · by_cases hci : c < i
    · exact hsorted₂ i j hci hij hj₂ hin
    · -- the position where the items are parted is between the two, or is one of them
      have hleft : gt (a₂ i) (a c) = false := by
        rw [hsame₂ i (by omega)]
        by_cases hic : i = c
        · rw [hic, hc]
          exact hgt.irrefl _
        · exact hle₁ i hi₁ (by omega)
      have hright : gt (a c) (a₂ j) = false := by
        by_cases hjc' : j = c
        · rw [hjc', hsame₂ c (Nat.le_refl c), hc]
          exact hgt.irrefl _
        · rw [← hc]
          exact hge₂ j (by omega) hj₂
      exact hgt.trans _ _ _ hleft hright

/-- **The sort sorts** when it has as much fuel as there are items. -/
theorem windowSort_spec (hgt : StrictWeak gt) {fuel : ℕ} (hpos : 0 < fuel) (hfuel : hi < lo + fuel) :
    Sorts gt (windowSort gt fuel) lo hi := by
  induction fuel generalizing lo hi with
  | zero => exact absurd hpos (Nat.lt_irrefl 0)
  | succ fuel ih =>
    intro start stop a
    rw [windowSort]
    by_cases hlt : lo < hi
    · rw [if_pos hlt]
      obtain ⟨r, a₁, heq, hre, hr⟩ := part_spec (a := a) hgt hlt
      rw [heq, Option.bind_some]
      rcases hr with ⟨rfl, hall⟩ | ⟨c, rfl, hloc, hchi, hparted⟩
      · exact ⟨a₁, rfl, fun _ => hre, fun hle => absurd hlt (Nat.not_lt.mpr hle), fun i j hi₁ hij hj₂ _ =>
          hall i j hi₁ hij hj₂⟩
      · obtain ⟨a₂, heq₂, hre₂, hsorted⟩ := sortBoth_spec hgt start stop hparted
          (ih (by omega) (by omega)) (ih (by omega) (by omega))
        exact ⟨a₂, heq₂, fun _ => hre.trans hre₂, fun hle => absurd hlt (Nat.not_lt.mpr hle), hsorted⟩
    · rw [if_neg hlt]
      refine ⟨a, rfl, fun h => absurd h hlt, fun _ => rfl, fun i j hi₁ hij hj₂ => ?_⟩
      omega

/-- The items that are arranged anew are a permutation. -/
theorem Rearranged.perm {n : ℕ} (h : Rearranged 0 n a a') :
    ((List.range (n + 1)).map a').Perm ((List.range (n + 1)).map a) := by
  obtain ⟨σ, hσ, rfl⟩ := h
  have hlt : ∀ i, σ i < n + 1 ↔ i < n + 1 := by
    intro i
    constructor
    · intro hi
      by_contra hout
      rw [hσ i (.inr (by omega))] at hi
      exact hout hi
    · intro hi
      by_contra hout
      have hfix : σ (σ i) = σ i := hσ _ (.inr (by omega))
      rw [σ.injective hfix] at hout
      exact hout hi
  have hrange : ((List.range (n + 1)).map σ).Perm (List.range (n + 1)) := by
    refine (List.perm_ext_iff_of_nodup (List.nodup_range.map σ.injective) List.nodup_range).mpr fun i => ?_
    rw [List.mem_map, List.mem_range]
    constructor
    · rintro ⟨j, hj, rfl⟩
      exact (hlt j).mpr (List.mem_range.mp hj)
    · intro hi
      exact ⟨σ.symm i, List.mem_range.mpr ((hlt _).mp (by rw [σ.apply_symm_apply]; exact hi)), σ.apply_symm_apply i⟩
  rw [← List.map_map]
  exact hrange.map a

/-! ## Packing -/

/-- The items are put into an array from both ends: those that the pivot belongs behind from the
front, the others from the back. The pivot goes between them. -/
def packItems (gt : α → α → Bool) (pivot : α) : List α → ℕ → ℕ → (ℕ → α) → ℕ × (ℕ → α)
  | [], head, _, a => (head, Function.update a head pivot)
  | x :: xs, head, tail, a =>
    if gt pivot x then packItems gt pivot xs (head + 1) tail (Function.update a head x)
    else packItems gt pivot xs head (tail - 1) (Function.update a tail x)

/-- What packing did. -/
structure Packed (gt : α → α → Bool) (pivot : α) (items : List α) (n : ℕ) (r : ℕ × (ℕ → α)) : Prop where
  le : r.1 ≤ n
  perm : ((List.range (n + 1)).map r.2).Perm items
  middle : r.2 r.1 = pivot
  before : ∀ i, i < r.1 → gt pivot (r.2 i) = true
  behind : ∀ i, r.1 < i → i ≤ n → gt pivot (r.2 i) = false

/-- **Packing parts the items.** -/
theorem packItems_spec {pivot : α} {xs : List α} {head tail n : ℕ} (htail : tail = head + xs.length) (htn : tail ≤ n)
    (hbefore : ∀ i, i < head → gt pivot (a i) = true) (hbehind : ∀ i, tail < i → i ≤ n → gt pivot (a i) = false) :
    Packed gt pivot ((List.range head).map a ++ pivot :: xs ++ (List.range' (tail + 1) (n - tail)).map a) n
      (packItems gt pivot xs head tail a) := by
  induction xs generalizing head tail a with
  | nil =>
    obtain rfl : tail = head := htail
    refine ⟨htn, .of_eq ?_, Function.update_self _ _ _, fun i hi => ?_, fun i hi₁ hi₂ => ?_⟩
    · have hrange : List.range (n + 1) = List.range tail ++ tail :: List.range' (tail + 1) (n - tail) := by
        have hsplit : List.range' 0 tail ++ List.range' (0 + tail) (n - tail + 1) = List.range' 0 (n + 1) := by
          rw [List.range'_append_1]
          congr 1
          omega
        rw [List.range_eq_range', List.range_eq_range', ← hsplit, Nat.zero_add, List.range'_succ]
      simp only [packItems]
      rw [hrange, List.map_append, List.map_cons, Function.update_self, List.append_assoc,
        List.singleton_append]
      have hother : ∀ l : List ℕ, tail ∉ l → l.map (Function.update a tail pivot) = l.map a := fun l hl =>
        List.map_congr_left fun i hi => Function.update_of_ne (by rintro rfl; exact hl hi) _ _
      rw [hother _ (by simp), hother _ (by simp)]
    · have hi' : i < tail := hi
      show gt pivot (Function.update a tail pivot i) = true
      rw [Function.update_of_ne (Nat.ne_of_lt hi')]
      exact hbefore i hi'
    · have hi' : tail < i := hi₁
      show gt pivot (Function.update a tail pivot i) = false
      rw [Function.update_of_ne (Nat.ne_of_gt hi')]
      exact hbehind i hi' hi₂
  | cons x xs ih =>
    rw [List.length_cons] at htail
    rw [packItems]
    by_cases hgt : gt pivot x = true
    · rw [if_pos hgt]
      have hpacked := @ih (Function.update a head x) (head + 1) tail (by omega) htn
        (fun i hi => by
          by_cases hih : i = head
          · rw [hih, Function.update_self]
            exact hgt
          · rw [Function.update_of_ne hih]
            exact hbefore i (by omega)) (fun i hi₁ hi₂ => by
          rw [Function.update_of_ne (by omega)]
          exact hbehind i hi₁ hi₂)
      have hleft : (List.range (head + 1)).map (Function.update a head x) = (List.range head).map a ++ [x] := by
        rw [List.range_succ, List.map_append, List.map_singleton, Function.update_self]
        congr 1
        exact List.map_congr_left fun i hi => Function.update_of_ne (Nat.ne_of_lt (List.mem_range.mp hi)) _ _
      have hright : (List.range' (tail + 1) (n - tail)).map (Function.update a head x) =
          (List.range' (tail + 1) (n - tail)).map a :=
        List.map_congr_left fun i hi => Function.update_of_ne (by rw [List.mem_range'_1] at hi; omega) _ _
      rw [hleft, hright] at hpacked
      refine ⟨hpacked.le, hpacked.perm.trans ?_, hpacked.middle, hpacked.before, hpacked.behind⟩
      refine List.Perm.append_right _ ?_
      rw [List.append_assoc]
      exact List.Perm.append_left _ (.swap _ _ _)
    · rw [if_neg hgt]
      have hpacked := @ih (Function.update a tail x) head (tail - 1) (by omega) (by omega)
        (fun i hi => by
          rw [Function.update_of_ne (by omega)]
          exact hbefore i hi) (fun i hi₁ hi₂ => by
          by_cases hit : i = tail
          · rw [hit, Function.update_self]
            exact Bool.eq_false_of_not_eq_true hgt
          · rw [Function.update_of_ne hit]
            exact hbehind i (by omega) hi₂)
      have hleft : (List.range head).map (Function.update a tail x) = (List.range head).map a :=
        List.map_congr_left fun i hi => Function.update_of_ne (by have := List.mem_range.mp hi; omega) _ _
      have hright : (List.range' (tail - 1 + 1) (n - (tail - 1))).map (Function.update a tail x) =
          x :: (List.range' (tail + 1) (n - tail)).map a := by
        have hsucc : tail - 1 + 1 = tail := by omega
        have hmore : n - (tail - 1) = n - tail + 1 := by omega
        rw [hsucc, hmore, List.range'_succ, List.map_cons, Function.update_self]
        congr 1
        exact List.map_congr_left fun i hi => Function.update_of_ne (by rw [List.mem_range'_1] at hi; omega) _ _
      rw [hleft, hright] at hpacked
      refine ⟨hpacked.le, hpacked.perm.trans ?_, hpacked.middle, hpacked.before, hpacked.behind⟩
      rw [List.append_assoc, List.append_assoc]
      refine List.Perm.append_left _ ?_
      rw [List.cons_append, List.cons_append, List.cons_append]
      exact List.Perm.cons _ List.perm_middle

/-- **The packed items are sorted in a window**, as the items of a list. -/
theorem Packed.sorts (hgt : StrictWeak gt) {pivot : α} {items : List α} {n : ℕ} {r : ℕ × (ℕ → α)} (start stop : ℤ)
    (hp : Packed gt pivot items n r) : ∃ a', sortBoth (windowSort gt (n + 1)) 0 n r.1 start stop r.2 = some a' ∧
      ((List.range (n + 1)).map a').Perm items ∧ WindowSorted gt a' 0 n start stop := by
  have hparted : Parted gt r.2 0 n r.1 := ⟨Nat.zero_le _, hp.le, fun i _ hi => by
    rw [hp.middle]
    exact hgt.asymm _ _ (hp.before i hi), fun i hi₁ hi₂ => by
    rw [hp.middle]
    exact hp.behind i hi₁ hi₂⟩
  have hle := hp.le
  obtain ⟨a', heq, hre, hsorted⟩ := sortBoth_spec hgt start stop hparted
    (windowSort_spec hgt (Nat.succ_pos n) (by omega))
    (windowSort_spec hgt (Nat.succ_pos n) (by omega))
  exact ⟨a', heq, hre.perm.trans hp.perm, hsorted⟩

end Groonga.Lib
