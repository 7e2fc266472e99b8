import Mathlib

/-!
# Binary heaps

A binary heap holds its items in a list: the children of the item at `n` are at `2 * n + 1` and
`2 * n + 2`, and no item is behind one of its children. An item that is in the wrong place is
moved along a path while the others close up; `siftUp` and `siftDown` do so with a hole, which
takes the item in the end.

The items are compared by `gt`, and `key` says what the comparison means.
-/

namespace Groonga.Lib.Heap

variable {α κ : Type*} [LinearOrder κ] (gt : α → α → Bool)

/-! ## The operations -/

/-- The hole at `n` goes up while the item there is behind `c`. -/
def siftUp (c : α) : ℕ → ℕ → List α → List α
  | 0, n, bins => bins.set n c
  | fuel + 1, n, bins =>
    if n = 0 then bins.set n c
    else
      match bins[(n - 1) / 2]? with
      | none => bins.set n c
      | some c2 =>
        if gt c c2 then bins.set n c else siftUp c fuel ((n - 1) / 2) (bins.set n c2)

/-- The child the hole goes down to, if `c` is behind one. -/
def pick (c : α) (n1 : ℕ) (c1 c2 : Option α) : Option (ℕ × α) :=
  match c1, c2 with
  | some c1, some c2 =>
    if gt c c1 then
      if gt c c2 && gt c1 c2 then some (n1 + 1, c2) else some (n1, c1)
    else if gt c c2 then some (n1 + 1, c2) else none
  | some c1, none => if gt c c1 then some (n1, c1) else none
  | none, some c2 => if gt c c2 then some (n1 + 1, c2) else none
  | none, none => none

/-- The hole at `n` goes down while `c` is behind a child. -/
def siftDown (c : α) : ℕ → ℕ → List α → List α
  | 0, n, bins => bins.set n c
  | fuel + 1, n, bins =>
    match pick gt c (n * 2 + 1) bins[n * 2 + 1]? bins[n * 2 + 2]? with
    | none => bins.set n c
    | some (n', c') => siftDown c fuel n' (bins.set n c')

def push (bins : List α) (c : α) : List α := siftUp gt c bins.length bins.length (bins ++ [c])

/-- The first item goes to its place. -/
def recalcMin : List α → List α
  | c :: b :: bins => siftDown gt c (bins.length + 2) 0 (c :: b :: bins)
  | bins => bins

/-- The first item is replaced by the last one. -/
def removeMin : List α → List α
  | [] => []
  | [_] => []
  | _ :: b :: bins => (b :: bins).getLast (List.cons_ne_nil _ _) :: (b :: bins).dropLast

/-! ## Order -/

variable (key : α → κ)

/-- The item at `i` is not behind the one at `j`. -/
def Before (v : List α) (i j : ℕ) : Prop :=
  ∀ x ∈ v[i]?, ∀ y ∈ v[j]?, key x ≤ key y

/-- No item is behind one of its children. -/
def IsHeap (v : List α) : Prop := ∀ i, 0 < i → Before key v ((i - 1) / 2) i

variable {gt key} {bins v : List α} {c x : α} {i j n : ℕ}

/-- The first item of a heap is a smallest one. -/
theorem IsHeap.le (h : IsHeap key (c :: bins)) : ∀ y ∈ c :: bins, key c ≤ key y := by
  have hall : ∀ i, ∀ y ∈ (c :: bins)[i]?, key c ≤ key y := fun i => by
    induction i using Nat.strongRecOn with
    | ind i ih =>
      intro y hy
      by_cases hi : i = 0
      · subst hi
        exact (congrArg key (Option.some.inj hy)).le
      · have hlt : (i - 1) / 2 < i := by omega
        obtain ⟨hi', -⟩ := List.getElem?_eq_some_iff.1 hy
        obtain ⟨z, hz⟩ : ∃ z, (c :: bins)[(i - 1) / 2]? = some z :=
          ⟨_, List.getElem?_eq_getElem (Nat.lt_trans hlt hi')⟩
        exact (ih _ hlt z hz).trans (h i (by omega) z hz y hy)
  intro y hy
  obtain ⟨i, hi⟩ := List.getElem?_of_mem hy
  exact hall i y hi

theorem isHeap_nil : IsHeap key ([] : List α) := fun i _ x hx => by simp at hx

/-! ## Moving the hole -/

/-- The item in the hole trades places with another one. -/
theorem getElem?_move (hn : n < v.length) (hj : j < v.length) (hne : n ≠ j) (a b : α) :
    ((v.set n b).set j a)[i]? = if i = j then some a else if i = n then some b else v[i]? := by
  rw [List.getElem?_set, List.getElem?_set, List.length_set]
  by_cases hij : i = j
  · subst hij
    rw [if_pos rfl, if_pos hj, if_pos rfl]
  · rw [if_neg (Ne.symm hij), if_neg hij]
    by_cases hin : i = n
    · subst hin
      rw [if_pos rfl, if_pos hn, if_pos rfl]
    · rw [if_neg (Ne.symm hin), if_neg hin]

theorem perm_move {a b : α} (ha : v[n]? = some a) (hb : v[j]? = some b) :
    ((v.set n b).set j a).Perm v := by
  obtain ⟨hn, rfl⟩ := List.getElem?_eq_some_iff.1 ha
  obtain ⟨hj, rfl⟩ := List.getElem?_eq_some_iff.1 hb
  exact List.set_set_perm hn hj

/-- The order on the way up: the item in the hole `n` may be before the one above. -/
structure Up (key : α → κ) (v : List α) (n : ℕ) : Prop where
  other : ∀ i, 0 < i → i ≠ n → Before key v ((i - 1) / 2) i
  above : ∀ i, 0 < i → (i - 1) / 2 = n → 0 < n → Before key v ((n - 1) / 2) i

/-- The order on the way down: the item in the hole `n` may be behind those below. -/
structure Down (key : α → κ) (v : List α) (n : ℕ) : Prop where
  other : ∀ i, 0 < i → (i - 1) / 2 ≠ n → Before key v ((i - 1) / 2) i
  above : ∀ i, 0 < i → (i - 1) / 2 = n → 0 < n → Before key v ((n - 1) / 2) i

theorem Up.isHeap (h : Up key v n) (hn : 0 < n → Before key v ((n - 1) / 2) n) :
    IsHeap key v := fun i hi => by
  by_cases hin : i = n
  · subst hin
    exact hn hi
  · exact h.other i hi hin

theorem Down.isHeap (h : Down key v n) (hn : ∀ i, 0 < i → (i - 1) / 2 = n → Before key v n i) :
    IsHeap key v := fun i hi => by
  by_cases hin : (i - 1) / 2 = n
  · rw [hin]
    exact hn i hi hin
  · exact h.other i hi hin

/-- The hole goes up. -/
theorem Up.move {b : α} (h : Up key v n) (hn0 : 0 < n) (hc : v[n]? = some c)
    (hb : v[(n - 1) / 2]? = some b) (hle : key c ≤ key b) :
    Up key ((v.set n b).set ((n - 1) / 2) c) ((n - 1) / 2) := by
  obtain ⟨hn, -⟩ := List.getElem?_eq_some_iff.1 hc
  obtain ⟨hp, -⟩ := List.getElem?_eq_some_iff.1 hb
  have hne : n ≠ (n - 1) / 2 := by omega
  have hget : ∀ i, ((v.set n b).set ((n - 1) / 2) c)[i]? =
      if i = (n - 1) / 2 then some c else if i = n then some b else v[i]? :=
    fun i => getElem?_move hn hp hne c b
  constructor
  · intro i hi hin x hx y hy
    rw [hget] at hx hy
    rw [if_neg hin] at hy
    by_cases hi' : i = n
    · rw [if_pos hi'] at hy
      rw [if_pos (by rw [hi'])] at hx
      cases hx
      cases hy
      exact hle
    · rw [if_neg hi'] at hy
      by_cases hpar : (i - 1) / 2 = (n - 1) / 2
      · rw [if_pos hpar] at hx
        cases hx
        exact hle.trans (h.other i hi hi' b (by rw [hpar]; exact hb) y hy)
      · rw [if_neg hpar] at hx
        by_cases hpn : (i - 1) / 2 = n
        · rw [if_pos hpn] at hx
          cases hx
          exact h.above i hi hpn hn0 b hb y hy
        · rw [if_neg hpn] at hx
          exact h.other i hi hi' x hx y hy
  · intro i hi hpar hp0 x hx y hy
    rw [hget] at hx hy
    rw [if_neg (by omega), if_neg (by omega)] at hx
    rw [if_neg (by omega)] at hy
    have hxb : key x ≤ key b := h.other _ hp0 hne.symm x hx b hb
    by_cases hi' : i = n
    · rw [if_pos hi'] at hy
      cases hy
      exact hxb
    · rw [if_neg hi'] at hy
      exact hxb.trans (h.other i hi hi' b (by rw [hpar]; exact hb) y hy)

/-- The hole goes down to the smaller child. -/
theorem Down.move {b : α} (h : Down key v n) (hj : (j - 1) / 2 = n) (hj0 : 0 < j)
    (hc : v[n]? = some c) (hb : v[j]? = some b) (hle : key b ≤ key c)
    (hleast : ∀ i, 0 < i → (i - 1) / 2 = n → ∀ y ∈ v[i]?, key b ≤ key y) :
    Down key ((v.set n b).set j c) j := by
  obtain ⟨hn, -⟩ := List.getElem?_eq_some_iff.1 hc
  obtain ⟨hjl, -⟩ := List.getElem?_eq_some_iff.1 hb
  have hne : n ≠ j := by omega
  have hget : ∀ i, ((v.set n b).set j c)[i]? =
      if i = j then some c else if i = n then some b else v[i]? :=
    fun i => getElem?_move hn hjl hne c b
  constructor
  · intro i hi hin x hx y hy
    rw [hget] at hx hy
    rw [if_neg hin] at hx
    by_cases hpar : (i - 1) / 2 = n
    · rw [if_pos hpar] at hx
      cases hx
      by_cases hij : i = j
      · rw [if_pos hij] at hy
        cases hy
        exact hle
      · rw [if_neg hij, if_neg (by omega)] at hy
        exact hleast i hi hpar y hy
    · rw [if_neg hpar] at hx
      rw [if_neg (by rintro rfl; exact hpar hj)] at hy
      by_cases hi' : i = n
      · rw [if_pos hi'] at hy
        cases hy
        rw [hi'] at hx
        exact h.above j hj0 hj (by omega) x hx b hb
      · rw [if_neg hi'] at hy
        exact h.other i hi hpar x hx y hy
  · intro i hi hpar _ x hx y hy
    rw [hget] at hx hy
    rw [if_neg (by omega), if_pos hj] at hx
    rw [if_neg (by omega), if_neg (by omega)] at hy
    cases hx
    exact h.other i hi (by omega) b (by rw [hpar]; exact hb) y hy

/-! ## The sifts -/

section Sifts

variable (hgt : ∀ a b, gt a b = true ↔ key b < key a)
include hgt

/-- **`siftUp`** fills the hole of a heap. -/
theorem siftUp_spec {fuel : ℕ} (hn : n < bins.length) (hfuel : n ≤ fuel)
    (h : Up key (bins.set n c) n) :
    IsHeap key (siftUp gt c fuel n bins) ∧ (siftUp gt c fuel n bins).Perm (bins.set n c) := by
  induction fuel generalizing n bins with
  | zero =>
    rw [siftUp]
    exact ⟨h.isHeap fun h0 => by omega, .refl _⟩
  | succ fuel ih =>
    rw [siftUp]
    by_cases hn0 : n = 0
    · rw [if_pos hn0]
      exact ⟨h.isHeap fun h0 => by omega, .refl _⟩
    · rw [if_neg hn0]
      have hp : (n - 1) / 2 < bins.length := by omega
      have hne : n ≠ (n - 1) / 2 := by omega
      rw [List.getElem?_eq_getElem hp]
      dsimp only
      set b := bins[(n - 1) / 2] with hb
      have hc : (bins.set n c)[n]? = some c := List.getElem?_set_self hn
      have hbv : (bins.set n c)[(n - 1) / 2]? = some b := by
        rw [List.getElem?_set_ne hne, List.getElem?_eq_getElem hp]
      split_ifs with hcmp
      · refine ⟨h.isHeap fun _ x hx y hy => ?_, .refl _⟩
        rw [Option.mem_def, hbv] at hx
        rw [Option.mem_def, hc] at hy
        cases hx
        cases hy
        exact ((hgt _ _).1 hcmp).le
      · have hle : key c ≤ key b := not_lt.1 fun hlt => hcmp ((hgt _ _).2 hlt)
        have hmove := h.move (by omega) hc hbv hle
        rw [List.set_set] at hmove
        obtain ⟨hheap, hperm⟩ := @ih (bins.set n b) _ (by simpa using hp) (by omega) hmove
        refine ⟨hheap, hperm.trans ?_⟩
        have := perm_move hc hbv
        rwa [List.set_set] at this

/-- What `pick` finds is the smaller child. -/
theorem pick_spec {n1 : ℕ} {c1 c2 : Option α} (hsome : c1 = none → c2 = none) :
    (pick gt c n1 c1 c2 = none ∧ (∀ x ∈ c1, key c ≤ key x) ∧ ∀ x ∈ c2, key c ≤ key x) ∨
      ∃ j b, pick gt c n1 c1 c2 = some (j, b) ∧
        ((j = n1 ∧ c1 = some b) ∨ (j = n1 + 1 ∧ c2 = some b)) ∧ key b < key c ∧
        (∀ x ∈ c1, key b ≤ key x) ∧ ∀ x ∈ c2, key b ≤ key x := by
  have hle : ∀ {a b : α}, ¬ gt a b = true → key a ≤ key b := fun hn =>
    not_lt.1 fun hlt => hn ((hgt _ _).2 hlt)
  cases c1 with
  | none =>
    rw [hsome rfl]
    exact .inl ⟨rfl, by simp, by simp⟩
  | some c1 =>
    cases c2 with
    | none =>
      rw [pick]
      split_ifs with h1
      · exact .inr ⟨_, _, rfl, .inl ⟨rfl, rfl⟩, (hgt _ _).1 h1, by simp, by simp⟩
      · exact .inl ⟨rfl, by simpa using hle h1, by simp⟩
    | some c2 =>
      rw [pick]
      by_cases h1 : gt c c1 = true
      · have hlt := (hgt _ _).1 h1
        rw [if_pos h1]
        by_cases h2 : (gt c c2 && gt c1 c2) = true
        · rw [if_pos h2]
          rw [Bool.and_eq_true] at h2
          exact .inr ⟨_, _, rfl, .inr ⟨rfl, rfl⟩, (hgt _ _).1 h2.1,
            by simpa using ((hgt _ _).1 h2.2).le, by simp⟩
        · rw [if_neg h2]
          refine .inr ⟨_, _, rfl, .inl ⟨rfl, rfl⟩, hlt, by simp, ?_⟩
          -- the first child is not behind the second one, directly or by way of `c`
          rw [Bool.and_eq_true, not_and_or] at h2
          rcases h2 with h2 | h2
          · simpa using hlt.le.trans (hle h2)
          · simpa using hle h2
      · rw [if_neg h1]
        by_cases h2 : gt c c2 = true
        · rw [if_pos h2]
          have hlt := (hgt _ _).1 h2
          exact .inr ⟨_, _, rfl, .inr ⟨rfl, rfl⟩, hlt, by simpa using hlt.le.trans (hle h1),
            by simp⟩
        · rw [if_neg h2]
          exact .inl ⟨rfl, by simpa using hle h1, by simpa using hle h2⟩

/-- **`siftDown`** fills the hole of a heap. -/
theorem siftDown_spec {fuel : ℕ} (hn : n < bins.length) (hfuel : bins.length ≤ n + fuel)
    (h : Down key (bins.set n c) n) :
    IsHeap key (siftDown gt c fuel n bins) ∧ (siftDown gt c fuel n bins).Perm (bins.set n c) := by
  induction fuel generalizing n bins with
  | zero => omega
  | succ fuel ih =>
    rw [siftDown]
    have hsome : bins[n * 2 + 1]? = none → bins[n * 2 + 2]? = none := fun hnone => by
      rw [List.getElem?_eq_none_iff] at hnone ⊢
      omega
    have hother : ∀ i, i ≠ n → (bins.set n c)[i]? = bins[i]? := fun i hi =>
      List.getElem?_set_ne hi.symm
    have hc : (bins.set n c)[n]? = some c := List.getElem?_set_self hn
    have hchild : ∀ i, 0 < i → (i - 1) / 2 = n → i = n * 2 + 1 ∨ i = n * 2 + 2 := by omega
    rcases @pick_spec α κ _ gt key c hgt (n * 2 + 1) _ _ hsome with
      ⟨hpick, hle1, hle2⟩ | ⟨j, b, hpick, hj, hlt, hle1, hle2⟩
    · rw [hpick]
      refine ⟨h.isHeap fun i hi hpar x hx y hy => ?_, .refl _⟩
      rw [Option.mem_def, hc] at hx
      cases hx
      rw [hother i (by omega)] at hy
      rcases hchild i hi hpar with rfl | rfl
      · exact hle1 y hy
      · exact hle2 y hy
    · rw [hpick]
      dsimp only
      have hjn : (j - 1) / 2 = n ∧ 0 < j ∧ bins[j]? = some b := by
        rcases hj with ⟨rfl, hb⟩ | ⟨rfl, hb⟩
        · exact ⟨by omega, by omega, hb⟩
        · exact ⟨by omega, by omega, hb⟩
      obtain ⟨hpar, hj0, hb⟩ := hjn
      have hjl : j < bins.length := (List.getElem?_eq_some_iff.1 hb).1
      have hbv : (bins.set n c)[j]? = some b := by rw [hother j (by omega), hb]
      have hmove := h.move hpar hj0 hc hbv hlt.le fun i hi hpi y hy => by
        rw [hother i (by omega)] at hy
        rcases hchild i hi hpi with rfl | rfl
        · exact hle1 y hy
        · exact hle2 y hy
      rw [List.set_set] at hmove
      obtain ⟨hheap, hperm⟩ := @ih (bins.set n b) j (by simpa using hjl)
        (by simp only [List.length_set]; omega) hmove
      refine ⟨hheap, hperm.trans ?_⟩
      have := perm_move hc hbv
      rwa [List.set_set] at this

/-! ## The operations on a heap -/

/-- **An item is put into a heap.** -/
theorem push_spec (h : IsHeap key bins) :
    IsHeap key (push gt bins c) ∧ (push gt bins c).Perm (c :: bins) := by
  have hset : (bins ++ [c]).set bins.length c = bins ++ [c] := by simp
  have hold : ∀ i, i < bins.length → (bins ++ [c])[i]? = bins[i]? := fun i hi =>
    List.getElem?_append_left hi
  have hup : Up key ((bins ++ [c]).set bins.length c) bins.length := by
    rw [hset]
    constructor
    · intro i hi hne x hx y hy
      obtain ⟨hlt, -⟩ := List.getElem?_eq_some_iff.1 hy
      rw [List.length_append, List.length_singleton] at hlt
      rw [hold _ (by omega)] at hx hy
      exact h i hi x hx y hy
    · intro i hi hpar h0 x hx y hy
      obtain ⟨hlt, -⟩ := List.getElem?_eq_some_iff.1 hy
      rw [List.length_append, List.length_singleton] at hlt
      omega
  obtain ⟨hheap, hperm⟩ := siftUp_spec hgt (by simp) (Nat.le_refl _) hup
  rw [hset] at hperm
  exact ⟨hheap, hperm.trans (List.perm_append_singleton c bins)⟩

/-- **The first item of a heap is changed**, and goes to its place. -/
theorem recalcMin_spec (h : IsHeap key (x :: bins)) :
    IsHeap key (recalcMin gt (c :: bins)) ∧ (recalcMin gt (c :: bins)).Perm (c :: bins) := by
  cases bins with
  | nil =>
    refine ⟨fun i hi y hy z hz => ?_, .refl _⟩
    obtain ⟨hlt, -⟩ := List.getElem?_eq_some_iff.1 hz
    simp only [recalcMin, List.length_singleton] at hlt
    omega
  | cons b bins =>
    have hset : (c :: b :: bins).set 0 c = c :: b :: bins := rfl
    have hdown : Down key ((c :: b :: bins).set 0 c) 0 := by
      rw [hset]
      constructor
      · intro i hi hpar y hy z hz
        obtain ⟨k, rfl⟩ : ∃ k, i = k + 1 := ⟨i - 1, by omega⟩
        obtain ⟨m, hm⟩ : ∃ m, (k + 1 - 1) / 2 = m + 1 := ⟨(k + 1 - 1) / 2 - 1, by omega⟩
        have := h (k + 1) hi
        rw [hm] at this hy
        rw [List.getElem?_cons_succ] at hy hz
        exact this y (by rw [List.getElem?_cons_succ]; exact hy) z
          (by rw [List.getElem?_cons_succ]; exact hz)
      · intro i _ _ h0
        omega
    exact siftDown_spec hgt (by simp) (by simp) hdown

/-- **The first item of a heap is taken off.** -/
theorem recalcMin_removeMin (h : IsHeap key (x :: bins)) :
    IsHeap key (recalcMin gt (removeMin (x :: bins))) ∧
      (recalcMin gt (removeMin (x :: bins))).Perm bins := by
  cases bins with
  | nil => exact ⟨isHeap_nil, .refl _⟩
  | cons b bins =>
    have hlast := List.dropLast_append_getLast (List.cons_ne_nil b bins)
    -- without its last item it is still a heap
    have hfront : IsHeap key (x :: (b :: bins).dropLast) := by
      have hpre : x :: b :: bins =
          (x :: (b :: bins).dropLast) ++ [(b :: bins).getLast (List.cons_ne_nil _ _)] := by
        rw [List.cons_append, hlast]
      have hold : ∀ i : ℕ, ∀ y ∈ (x :: (b :: bins).dropLast)[i]?, y ∈ (x :: b :: bins)[i]? := by
        intro i y hy
        rw [hpre, List.getElem?_append_left (List.getElem?_eq_some_iff.1 hy).1]
        exact hy
      exact fun i hi y hy z hz => h i hi y (hold _ y hy) z (hold _ z hz)
    obtain ⟨hheap, hperm⟩ := recalcMin_spec hgt
      (c := (b :: bins).getLast (List.cons_ne_nil _ _)) hfront
    refine ⟨hheap, hperm.trans ?_⟩
    have := (List.perm_append_singleton ((b :: bins).getLast (List.cons_ne_nil _ _))
      (b :: bins).dropLast).symm
    rwa [hlast] at this

end Sifts

end Groonga.Lib.Heap
