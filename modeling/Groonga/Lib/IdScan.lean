import Mathlib

/-!
# Scans of ids

A scan goes through ids one by one, upwards or downwards, and stops when its position equals its
last id. Ids that are not seen are passed over, and some of the seen ids are skipped at the start.
As long as the position comes to the last id, a scan gives what is left of a list of ids.
-/

namespace Groonga.Lib

/-! ## The ids ahead -/

/-- The last id is not behind the position. -/
def Faces (descending : Bool) (curr tail : ℕ) : Prop := if descending then tail ≤ curr else curr ≤ tail

/-- The next position. -/
def advance (descending : Bool) (curr : ℕ) : ℕ := if descending then curr - 1 else curr + 1

/-- The ids from behind the position to the last id. -/
def ahead (descending : Bool) (curr tail : ℕ) : List ℕ :=
  if descending then (List.range' tail (curr - tail)).reverse else List.range' (curr + 1) (tail - curr)

variable {descending : Bool} {curr tail c : ℕ}

@[simp] theorem ahead_self : ahead descending tail tail = [] := by
  rw [ahead]
  cases descending <;> simp

/-- **One position further** one id less is ahead. -/
theorem ahead_cons (hf : Faces descending curr tail) (hne : curr ≠ tail) :
    ahead descending curr tail = advance descending curr :: ahead descending (advance descending curr) tail ∧
      Faces descending (advance descending curr) tail := by
  rw [Faces] at hf ⊢
  simp only [ahead, advance]
  cases descending with
  | false =>
    simp only [Bool.false_eq_true, if_false] at hf ⊢
    obtain ⟨n, hn⟩ : ∃ n, tail - curr = n + 1 := ⟨tail - curr - 1, by omega⟩
    have hn' : tail - (curr + 1) = n := by omega
    rw [hn, hn', List.range'_succ]
    exact ⟨rfl, by omega⟩
  | true =>
    simp only [if_true] at hf ⊢
    obtain ⟨n, hn⟩ : ∃ n, curr - tail = n + 1 := ⟨curr - tail - 1, by omega⟩
    have hn' : curr - 1 - tail = n := by omega
    have hlast : tail + n = curr - 1 := by omega
    rw [hn, hn', List.range'_1_concat, List.reverse_append, hlast]
    exact ⟨rfl, by omega⟩

theorem length_ahead : (ahead descending curr tail).length = if descending then curr - tail else tail - curr := by
  rw [ahead]
  split_ifs <;> simp

/-- The ids ahead are between the position and the last id. -/
theorem mem_ahead {id : ℕ} : id ∈ ahead descending curr tail ↔
    if descending then tail ≤ id ∧ id < curr else curr < id ∧ id ≤ tail := by
  rw [ahead]
  split_ifs
  · rw [List.mem_reverse, List.mem_range'_1]
    omega
  · rw [List.mem_range'_1]
    omega

/-- The position, and the ids ahead. -/
def course (descending : Bool) (curr tail : ℕ) : List ℕ := curr :: ahead descending curr tail

/-- **A jump over ids** that are ahead. -/
theorem ahead_jump {n : ℕ} (hf : Faces descending curr tail) (hn : n ≤ (ahead descending curr tail).length)
    (hc : c = if descending then curr - n else curr + n) :
    Faces descending c tail ∧ course descending c tail <:+ course descending curr tail ∧
      ahead descending c tail = (ahead descending curr tail).drop n := by
  induction n generalizing curr with
  | zero =>
    obtain rfl : c = curr := by
      rw [hc]
      split_ifs <;> rfl
    exact ⟨hf, List.suffix_rfl, rfl⟩
  | succ n ih =>
    have hne : curr ≠ tail := by
      rintro rfl
      rw [ahead_self] at hn
      exact absurd hn (Nat.not_succ_le_zero n)
    obtain ⟨hcons, hf'⟩ := ahead_cons hf hne
    have hc' : c = if descending then advance descending curr - n else advance descending curr + n := by
      rw [hc, advance]
      split_ifs
      · omega
      · omega
    rw [hcons, List.length_cons] at hn
    obtain ⟨hfc, hsuffix, hdrop⟩ := ih hf' (Nat.le_of_succ_le_succ hn) hc'
    refine ⟨hfc, hsuffix.trans ?_, by rw [hdrop, hcons, List.drop_succ_cons]⟩
    rw [course, course, hcons]
    exact List.suffix_cons _ _

/-! ## The loops -/

section
variable (seen : ℕ → Bool) (move : ℕ → ℕ) (tail : ℕ)

/-- As many seen ids are skipped as wanted. -/
def skipTo : ℕ → ℤ → ℕ → ℕ
  | 0, _, curr => curr
  | fuel + 1, n, curr =>
    if n = 0 ∨ curr = tail then curr
    else skipTo fuel (if seen (move curr) then n - 1 else n) (move curr)

/-- The next id that is seen, or none. -/
def nextTo : ℕ → ℕ → Bool × ℕ
  | 0, curr => (false, curr)
  | fuel + 1, curr =>
    if curr = tail then (false, curr)
    else if seen (move curr) then (true, move curr)
    else nextTo fuel (move curr)

end

variable {seen : ℕ → Bool} {move : ℕ → ℕ}

/-- The positions of a scan are moved on as they should. -/
def Moves (move : ℕ → ℕ) (descending : Bool) (curr tail : ℕ) : Prop :=
  ∀ c ∈ course descending curr tail, c ≠ tail → move c = advance descending c

theorem Moves.of_suffix (hmoves : Moves move descending curr tail)
    (hsuffix : course descending c tail <:+ course descending curr tail) : Moves move descending c tail :=
  fun c' hc' => hmoves c' (hsuffix.mem hc')

/-- The course from the next position. -/
theorem course_advance (hf : Faces descending curr tail) (hne : curr ≠ tail) :
    course descending (advance descending curr) tail <:+ course descending curr tail := by
  rw [course, course, (ahead_cons hf hne).1]
  exact List.suffix_cons _ _

/-- **Skipping** comes to a position behind the skipped ids. -/
theorem skipTo_spec {fuel : ℕ} {n : ℤ} (hf : Faces descending curr tail)
    (hmoves : Moves move descending curr tail) (hfuel : (ahead descending curr tail).length < fuel) (hn : 0 ≤ n) :
    Faces descending (skipTo seen move tail fuel n curr) tail ∧
      course descending (skipTo seen move tail fuel n curr) tail <:+ course descending curr tail ∧
      (ahead descending (skipTo seen move tail fuel n curr) tail).filter seen =
        ((ahead descending curr tail).filter seen).drop n.toNat := by
  induction fuel generalizing n curr with
  | zero => exact absurd hfuel (Nat.not_lt_zero _)
  | succ fuel ih =>
    rw [skipTo]
    by_cases hend : n = 0 ∨ curr = tail
    · rw [if_pos hend]
      refine ⟨hf, List.suffix_rfl, ?_⟩
      rcases hend with rfl | rfl
      · rfl
      · rw [ahead_self, List.filter_nil, List.drop_nil]
    · rw [if_neg hend]
      obtain ⟨hne0, hne⟩ := not_or.mp hend
      obtain ⟨hcons, hf'⟩ := ahead_cons hf hne
      have hadvance := course_advance hf hne
      rw [hmoves curr List.mem_cons_self hne, hcons]
      rw [hcons, List.length_cons] at hfuel
      by_cases hseen : seen (advance descending curr) = true
      · obtain ⟨hfc, hsuffix, hdrop⟩ := ih (n := n - 1) hf' (hmoves.of_suffix hadvance) (by omega) (by omega)
        have hpred : n.toNat = (n - 1).toNat + 1 := by omega
        rw [if_pos hseen, List.filter_cons_of_pos hseen, hpred, List.drop_succ_cons]
        exact ⟨hfc, hsuffix.trans hadvance, hdrop⟩
      · obtain ⟨hfc, hsuffix, hdrop⟩ := ih (n := n) hf' (hmoves.of_suffix hadvance) (by omega) hn
        rw [if_neg hseen, List.filter_cons_of_neg hseen]
        exact ⟨hfc, hsuffix.trans hadvance, hdrop⟩

/-- **The next id** is the first one that is ahead and seen. -/
theorem nextTo_spec (seen : ℕ → Bool) {fuel : ℕ} (hf : Faces descending curr tail) (hmoves : Moves move descending curr tail)
    (hfuel : (ahead descending curr tail).length < fuel) :
    Faces descending (nextTo seen move tail fuel curr).2 tail ∧
      course descending (nextTo seen move tail fuel curr).2 tail <:+ course descending curr tail ∧
      (((ahead descending curr tail).filter seen = [] ∧ nextTo seen move tail fuel curr = (false, tail)) ∨
        ((nextTo seen move tail fuel curr).1 = true ∧ (ahead descending curr tail).filter seen =
          (nextTo seen move tail fuel curr).2 ::
            (ahead descending (nextTo seen move tail fuel curr).2 tail).filter seen)) := by
  induction fuel generalizing curr with
  | zero => exact absurd hfuel (Nat.not_lt_zero _)
  | succ fuel ih =>
    rw [nextTo]
    by_cases hend : curr = tail
    · subst hend
      rw [if_pos rfl]
      refine ⟨hf, List.suffix_rfl, .inl ⟨?_, rfl⟩⟩
      rw [ahead_self]
      rfl
    · obtain ⟨hcons, hf'⟩ := ahead_cons hf hend
      have hadvance := course_advance hf hend
      rw [if_neg hend, hmoves curr List.mem_cons_self hend, hcons]
      rw [hcons, List.length_cons] at hfuel
      by_cases hseen : seen (advance descending curr) = true
      · rw [if_pos hseen, List.filter_cons_of_pos hseen]
        exact ⟨hf', hadvance, .inr ⟨rfl, rfl⟩⟩
      · obtain ⟨hfc, hsuffix, hnext⟩ := ih hf' (hmoves.of_suffix hadvance) (by omega)
        rw [if_neg hseen, List.filter_cons_of_neg hseen]
        exact ⟨hfc, hsuffix.trans hadvance, hnext⟩

/-! ## Calls -/

/-- What calls one after another give, and the last state. -/
def calls {σ : Type} (next : σ → ℕ × σ) : ℕ → σ → List ℕ × σ
  | 0, s => ([], s)
  | k + 1, s => ((next s).1 :: (calls next k (next s).2).1, (calls next k (next s).2).2)

/-- **The calls give what is pending**, and then nil. -/
theorem calls_spec {σ : Type} {next : σ → ℕ × σ} (pending : σ → List ℕ) (Good : σ → Prop)
    (hstep : ∀ s, Good s → Good (next s).2 ∧ (next s).1 = (pending s).headD 0 ∧
      pending (next s).2 = (pending s).tail) (k : ℕ) {s : σ} (hgood : Good s) :
    (calls next k s).1 = (List.range k).map (fun i => (pending s).getD i 0) ∧ Good (calls next k s).2 := by
  induction k generalizing s with
  | zero => exact ⟨rfl, hgood⟩
  | succ k ih =>
    obtain ⟨hgood', hfirst, htail⟩ := hstep s hgood
    obtain ⟨hrest, hlast⟩ := ih hgood'
    refine ⟨?_, hlast⟩
    have hget : ∀ (l : List ℕ) (i : ℕ), l.tail.getD i 0 = l.getD (i + 1) 0 := by
      intro l i
      cases l <;> rfl
    rw [calls, hrest, hfirst, htail, List.range_succ_eq_map, List.map_cons, List.map_map]
    have hhead : (pending s).headD 0 = (pending s).getD 0 0 := by cases pending s <;> rfl
    exact congrArg₂ List.cons hhead (List.map_congr_left fun i _ => hget _ i)

/-! ## The bounds -/

/-- The bounds of a scan, 0 is none. The bounds may be excluded. -/
structure Bounds where
  min : ℕ
  max : ℕ
  descending : Bool
  gt : Bool
  lt : Bool
deriving DecidableEq, Repr

/-- The id is within the bounds. -/
def Bounds.Admits (b : Bounds) (id : ℕ) : Prop :=
  (b.min = 0 ∨ b.min < id ∨ (b.min = id ∧ b.gt = false)) ∧
    (b.max = 0 ∨ id < b.max ∨ (id = b.max ∧ b.lt = false))

instance (b : Bounds) (id : ℕ) : Decidable (b.Admits id) := inferInstanceAs (Decidable (_ ∧ _))

/-- The ids within the bounds, in the order of the scan. -/
def Bounds.ids (b : Bounds) (maxId : ℕ) : List ℕ :=
  let ids := (List.range' 1 maxId).filter fun id => b.Admits id
  if b.descending then ids.reverse else ids

/-- Some ids are skipped, and then at most so many are given. A negative number is no limit. -/
def limited (offset limit : ℤ) (ids : List ℕ) : List ℕ :=
  if limit < 0 then ids.drop offset.toNat else (ids.drop offset.toNat).take limit.toNat

/-- The id before the first one. -/
def Bounds.start (b : Bounds) (maxId : ℕ) : ℕ :=
  if b.descending then
    if b.max ≠ 0 then (if b.lt then b.max else b.max + 1) else maxId + 1
  else
    if b.min ≠ 0 then (if b.gt then b.min else b.min - 1) else 0

/-- The last id, or the start when there is no id. -/
def Bounds.stop (b : Bounds) (maxId : ℕ) : ℕ :=
  if b.descending then
    Min.min (b.start maxId) (if b.min ≠ 0 then (if b.gt then b.min + 1 else b.min) else 1)
  else
    Max.max (b.start maxId) (if b.max ≠ 0 then (if b.lt then b.max - 1 else b.max) else maxId)

theorem Bounds.faces (b : Bounds) (maxId : ℕ) : Faces b.descending (b.start maxId) (b.stop maxId) := by
  rw [Faces, stop]
  cases b.descending with
  | false => exact Nat.le_max_left _ _
  | true => exact Nat.min_le_left _ _

/-- **The ids ahead of the start** are the ids within the bounds. -/
theorem Bounds.ahead_start (b : Bounds) {maxId : ℕ} (hmin : b.min ≤ maxId) (hmax : b.max ≤ maxId) :
    ahead b.descending (b.start maxId) (b.stop maxId) = b.ids maxId := by
  have hmem : ∀ id, id ∈ ahead b.descending (b.start maxId) (b.stop maxId) ↔
      id ∈ (List.range' 1 maxId).filter fun id => b.Admits id := by
    intro id
    rw [mem_ahead, List.mem_filter, List.mem_range'_1, decide_eq_true_eq, Admits, stop, start]
    rcases b with ⟨min, max, descending, gt, lt⟩
    cases descending with
    | false =>
      simp only [Bool.false_eq_true, if_false] at hmin hmax ⊢
      split_ifs <;> simp_all <;> omega
    | true =>
      simp only [if_true] at hmin hmax ⊢
      split_ifs <;> simp_all <;> omega
  have hsorted : ((List.range' 1 maxId).filter fun id => b.Admits id).Pairwise (· < ·) :=
    (List.pairwise_lt_range' 1).filter _
  rw [ids]
  rw [ahead] at hmem ⊢
  cases hd : b.descending with
  | false =>
    simp only [hd, Bool.false_eq_true, if_false] at hmem ⊢
    exact (List.pairwise_lt_range' 1).eq_of_mem_iff hsorted hmem
  | true =>
    simp only [hd, if_true, List.mem_reverse] at hmem ⊢
    rw [List.Pairwise.eq_of_mem_iff (List.pairwise_lt_range' 1) hsorted hmem]

theorem Bounds.mem_ids {b : Bounds} {maxId id : ℕ} : id ∈ b.ids maxId ↔ (1 ≤ id ∧ id ≤ maxId) ∧ b.Admits id := by
  have hmem : id ∈ b.ids maxId ↔ id ∈ (List.range' 1 maxId).filter fun id => b.Admits id := by
    rw [ids]
    split_ifs
    · exact List.mem_reverse
    · rfl
  rw [hmem, List.mem_filter, List.mem_range'_1, decide_eq_true_eq, Nat.add_comm 1, Nat.lt_succ_iff]

theorem Bounds.nodup_ids (b : Bounds) (maxId : ℕ) : (b.ids maxId).Nodup := by
  rw [ids]
  split_ifs
  · exact List.nodup_reverse.mpr ((List.nodup_range' 1).filter _)
  · exact (List.nodup_range' 1).filter _

theorem Bounds.start_le (b : Bounds) {maxId : ℕ} (hmin : b.min ≤ maxId) (hmax : b.max ≤ maxId) :
    b.start maxId ≤ maxId + 1 ∧ b.stop maxId ≤ maxId + 1 := by
  rw [stop, start]
  split_ifs <;> omega

/-! ## Scans -/

/-- **A scan obeys** its bounds, its offset and its limit: the calls give the live ids within the
bounds, then nil, and the position is never outside of them. -/
structure Bounds.Obeys {σ : Type} (b : Bounds) (maxId : ℕ) (live : ℕ → Bool) (offset limit : ℤ)
    (next : σ → ℕ × σ) (position : σ → ℕ) (s : σ) : Prop where
  gives : ∀ k, (calls next k s).1 =
    (List.range k).map fun i => (limited offset limit ((b.ids maxId).filter live)).getD i 0
  inside : ∀ k, position (calls next k s).2 ∈ b.start maxId :: b.ids maxId

/-- Calls that do the same give the same. -/
theorem calls_congr {σ τ : Type} {next : σ → ℕ × σ} {next' : τ → ℕ × τ} (f : σ → τ) (Good : σ → Prop)
    (hstep : ∀ s, Good s → Good (next s).2 ∧ next' (f s) = ((next s).1, f (next s).2)) (k : ℕ) {s : σ}
    (hgood : Good s) : calls next' k (f s) = ((calls next k s).1, f (calls next k s).2) := by
  induction k generalizing s with
  | zero => rfl
  | succ k ih =>
    obtain ⟨hgood', hsame⟩ := hstep s hgood
    rw [calls, hsame, ih hgood']
    rfl

/-- **Calls that do the same obey the same.** -/
theorem Bounds.obeys_congr {σ τ : Type} (next : σ → ℕ × σ) (next' : τ → ℕ × τ) (position : σ → ℕ)
    (position' : τ → ℕ) {live live' : ℕ → Bool} {b : Bounds} {maxId : ℕ} (offset limit : ℤ) (f : σ → τ)
    (Good : σ → Prop) (hstep : ∀ s, Good s → Good (next s).2 ∧ next' (f s) = ((next s).1, f (next s).2))
    (hposition : ∀ s, position' (f s) = position s)
    (hlive : (b.ids maxId).filter live' = (b.ids maxId).filter live) {s : σ} (hgood : Good s) :
    b.Obeys maxId live' offset limit next' position' (f s) ↔ b.Obeys maxId live offset limit next position s := by
  have hcalls := fun k => calls_congr f Good hstep k hgood
  constructor
  · rintro ⟨hgives, hinside⟩
    refine ⟨fun k => ?_, fun k => ?_⟩
    · rw [← hlive, ← hgives k, hcalls k]
    · have hk := hinside k
      rw [hcalls k, hposition] at hk
      exact hk
  · rintro ⟨hgives, hinside⟩
    refine ⟨fun k => ?_, fun k => ?_⟩
    · rw [hlive, ← hgives k, hcalls k]
    · rw [hcalls k, hposition]
      exact hinside k

/-- A scan: the position, the last id, how many ids may still come, and the direction. -/
structure Scan where
  curr : ℕ
  tail : ℕ
  rest : ℕ
  descending : Bool
deriving DecidableEq, Repr

/-- A number of a machine word. -/
def wrap (modulus : ℕ) (n : ℤ) : ℕ := (n % modulus).toNat

/-- The direction as a number. -/
def direction (descending : Bool) : ℤ := if descending then -1 else 1

/-- The next position, as a number of a machine word. -/
def shift (modulus : ℕ) (descending : Bool) (curr : ℕ) : ℕ := wrap modulus (curr + direction descending)

/-- The next id that is seen, nil at the end or when no more ids are wanted. -/
def Scan.next (modulus : ℕ) (seen : ℕ → Bool) (fuel : ℕ) (c : Scan) : ℕ × Scan :=
  if c.rest = 0 then (0, c)
  else
    let r := nextTo seen (shift modulus c.descending) c.tail fuel c.curr
    if r.1 then (r.2, { c with curr := r.2, rest := c.rest - 1 }) else (0, { c with curr := r.2 })

/-- What a scan will give. -/
def Scan.pending (seen : ℕ → Bool) (c : Scan) : List ℕ :=
  ((ahead c.descending c.curr c.tail).filter seen).take c.rest

variable {modulus start fuel : ℕ}

/-- The positions of a scan are no larger than a machine word. -/
theorem moves_shift (hcurr : curr < modulus) (htail : tail < modulus) (hf : Faces descending curr tail) :
    Moves (shift modulus descending) descending curr tail := by
  intro c hc hne
  rw [course, List.mem_cons, mem_ahead] at hc
  rw [Faces] at hf
  simp only [shift, wrap, direction, advance]
  cases descending with
  | false =>
    simp only [Bool.false_eq_true, if_false] at hc hf ⊢
    rw [Int.emod_eq_of_lt (by omega) (by omega)]
    omega
  | true =>
    simp only [if_true] at hc hf ⊢
    rw [Int.emod_eq_of_lt (by omega) (by omega)]
    omega

/-- **A scan stands** at its start or within its ids. -/
structure Scan.Stands (c : Scan) (descending : Bool) (start tail : ℕ) : Prop where
  last : c.tail = tail
  goes : c.descending = descending
  faces : Faces descending c.curr tail
  within : course descending c.curr tail <:+ course descending start tail

/-- **A call** gives the next id that is pending. -/
theorem Scan.Stands.next {s : Scan} (hst : s.Stands descending start tail) (hstart : start < modulus)
    (htail : tail < modulus) : (s.next modulus seen modulus).2.Stands descending start tail ∧
      (s.next modulus seen modulus).1 = (s.pending seen).headD 0 ∧
        (s.next modulus seen modulus).2.pending seen = (s.pending seen).tail := by
  obtain ⟨rfl, rfl, hf, hsuffix⟩ := hst
  rcases s with ⟨curr, tail, rest, descending⟩
  simp only at htail hf hsuffix
  rw [Scan.next]
  by_cases hrest : rest = 0
  · subst hrest
    simp only [if_true, pending, List.take_zero]
    exact ⟨⟨rfl, rfl, hf, hsuffix⟩, rfl, rfl⟩
  · have hcurr : curr < modulus := by
      have hmem := hsuffix.mem List.mem_cons_self
      rw [course, List.mem_cons, mem_ahead] at hmem
      split_ifs at hmem <;> omega
    have hfuel : (ahead descending curr tail).length < modulus := by
      rw [length_ahead]
      split_ifs <;> omega
    obtain ⟨hf', hsuffix', hnext⟩ := nextTo_spec seen hf (moves_shift hcurr htail hf) hfuel
    obtain ⟨n, rfl⟩ := Nat.exists_eq_succ_of_ne_zero hrest
    simp only [if_neg hrest]
    rcases hnext with ⟨hempty, heq⟩ | ⟨htrue, hcons⟩
    · rw [heq] at hf' hsuffix' ⊢
      refine ⟨⟨rfl, rfl, hf', hsuffix'.trans hsuffix⟩, ?_, ?_⟩
      · rw [pending, hempty]
        rfl
      · simp only [Bool.false_eq_true, if_false, pending, hempty, ahead_self]
        rfl
    · rw [if_pos htrue]
      refine ⟨⟨rfl, rfl, hf', hsuffix'.trans hsuffix⟩, ?_, ?_⟩
      · rw [pending, hcons]
        rfl
      · simp only [pending, hcons, List.take_succ_cons]
        rfl

/-- **An opened scan.** With holes the ids to skip are looked up; without holes the position is just
moved. -/
structure Scan.Opened (c : Scan) (modulus : ℕ) (b : Bounds) (maxId : ℕ) (holes : Bool) (seen : ℕ → Bool)
    (offset limit : ℤ) : Prop where
  last : c.tail = b.stop maxId
  goes : c.descending = b.descending
  rest : (0 ≤ limit ∧ c.rest = limit.toNat) ∨ (limit < 0 ∧ ((b.ids maxId).filter seen).length ≤ c.rest)
  skipped : holes = true → c.curr = skipTo seen
    (shift modulus b.descending) (b.stop maxId) modulus offset (b.start maxId)
  moved : holes = false → c.curr = wrap modulus (b.start maxId + direction b.descending * offset)

variable {b : Bounds} {maxId : ℕ} {holes : Bool} {offset limit : ℤ} {s : Scan}

/-- **The scan is opened within its ids**, with holes, or when no more ids are skipped than there are. -/
theorem Scan.Opened.stands (ho : s.Opened modulus b maxId holes seen offset limit) (hmin : b.min ≤ maxId)
    (hmax : b.max ≤ maxId) (hoffset : 0 ≤ offset) (hmodulus : maxId + 1 + offset < modulus)
    (hall : holes = false → ∀ id, seen id = true)
    (hwithin : holes = true ∨ offset ≤ ((b.ids maxId).filter seen).length) :
    s.Stands b.descending (b.start maxId) (b.stop maxId) ∧
      s.pending seen = limited offset limit ((b.ids maxId).filter seen) := by
  have hf := b.faces maxId
  have hids := b.ahead_start hmin hmax
  obtain ⟨hstart, hstop⟩ := b.start_le hmin hmax
  have hcurr : Faces b.descending s.curr (b.stop maxId) ∧
      course b.descending s.curr (b.stop maxId) <:+ course b.descending (b.start maxId) (b.stop maxId) ∧
        (ahead b.descending s.curr (b.stop maxId)).filter seen =
          ((b.ids maxId).filter seen).drop offset.toNat := by
    cases holes with
    | true =>
      have hfuel : (ahead b.descending (b.start maxId) (b.stop maxId)).length < modulus := by
        rw [length_ahead]
        split_ifs <;> omega
      rw [ho.skipped rfl, ← hids]
      exact skipTo_spec hf (moves_shift (by omega) (by omega) hf) hfuel hoffset
    | false =>
      have hself : ∀ ids : List ℕ, ids.filter seen = ids := fun ids =>
        List.filter_eq_self.mpr fun id _ => hall rfl id
      obtain ⟨n, hn⟩ := Int.eq_ofNat_of_zero_le hoffset
      have hle := hwithin.resolve_left Bool.false_ne_true
      rw [hself, ← hids, hn] at hle
      have hn' : n ≤ (ahead b.descending (b.start maxId) (b.stop maxId)).length := by exact_mod_cast hle
      have hplace : s.curr = if b.descending then b.start maxId - n else b.start maxId + n := by
        rw [length_ahead] at hn'
        rw [ho.moved rfl, hn, wrap, direction]
        split_ifs at hn' ⊢
        · rw [Int.emod_eq_of_lt (by omega) (by omega)]
          omega
        · rw [Int.emod_eq_of_lt (by omega) (by omega)]
          omega
      obtain ⟨hf', hsuffix, hdrop⟩ := ahead_jump hf hn' hplace
      refine ⟨hf', hsuffix, ?_⟩
      rw [hself, hself, hdrop, hids, hn]
      rfl
  obtain ⟨hf', hsuffix, hdrop⟩ := hcurr
  refine ⟨⟨ho.last, ho.goes, hf', hsuffix⟩, ?_⟩
  rw [Scan.pending, ho.goes, ho.last, hdrop, limited]
  rcases ho.rest with ⟨hnonneg, heq⟩ | ⟨hneg, hle⟩
  · rw [if_neg (Int.not_lt.mpr hnonneg), heq]
  · rw [if_pos hneg]
    exact List.take_of_length_le (by rw [List.length_drop]; omega)

/-- **The scan obeys exactly** when there are holes, or when no more ids are skipped than there are. -/
theorem Scan.Opened.obeys_iff (ho : s.Opened modulus b maxId holes seen offset limit) (hmin : b.min ≤ maxId)
    (hmax : b.max ≤ maxId) (hoffset : 0 ≤ offset) (hmodulus : maxId + 1 + offset < modulus)
    (hall : holes = false → ∀ id, seen id = true) :
    b.Obeys maxId seen offset limit (Scan.next modulus seen modulus) Scan.curr s ↔
      holes = true ∨ offset ≤ ((b.ids maxId).filter seen).length := by
  have hf := b.faces maxId
  have hids := b.ahead_start hmin hmax
  obtain ⟨hstart, hstop⟩ := b.start_le hmin hmax
  constructor
  · intro hobeys
    by_contra hbeyond
    obtain ⟨hnone, hlt⟩ := not_or.mp hbeyond
    have hfalse := Bool.eq_false_of_not_eq_true hnone
    -- the position was moved out of the bounds when the scan was opened
    have hinside := hobeys.inside 0
    have hself : (b.ids maxId).filter seen = b.ids maxId :=
      List.filter_eq_self.mpr fun id _ => hall hfalse id
    rw [hself, ← hids, length_ahead] at hlt
    rw [calls, ho.moved hfalse, ← hids, List.mem_cons, mem_ahead] at hinside
    rw [Faces] at hf
    cases hd : b.descending with
    | false =>
      simp only [hd, Bool.false_eq_true, if_false, wrap, direction] at hlt hinside hf
      rw [Int.emod_eq_of_lt (by omega) (by omega)] at hinside
      omega
    | true =>
      simp only [hd, if_true, wrap, direction] at hlt hinside hf
      by_cases hneg : (b.start maxId : ℤ) + -1 * offset < 0
      · have hwrap : ((b.start maxId : ℤ) + -1 * offset) % modulus = b.start maxId + -1 * offset + modulus := by
          rw [← Int.add_emod_right, Int.emod_eq_of_lt (by omega) (by omega)]
        rw [hwrap] at hinside
        omega
      · rw [Int.emod_eq_of_lt (by omega) (by omega)] at hinside
        omega
  · intro hwithin
    obtain ⟨hst, hpending⟩ := ho.stands hmin hmax hoffset hmodulus hall hwithin
    have hstart' : b.start maxId < modulus := by omega
    have hstop' : b.stop maxId < modulus := by omega
    have hcalls := fun k => calls_spec (Scan.pending seen)
      (fun s : Scan => s.Stands b.descending (b.start maxId) (b.stop maxId))
      (fun s hs => hs.next hstart' hstop') k hst
    refine ⟨fun k => ?_, fun k => ?_⟩
    · rw [(hcalls k).1, hpending]
    · rw [← hids]
      exact (hcalls k).2.within.mem List.mem_cons_self

end Groonga.Lib
