import Groonga.Snip.TunedBm
import Mathlib

/-!
# What a search comes to

The loops move the end of the keyword over the text. All occurrences that end before it are dealt with, and a
move passes over none: it goes up to the distance that the table has for the character under the end. Ten moves go over
ten keywords at most, which is why the limit of the loop with ten moves is eleven keywords before the end of
the text.
-/

namespace Groonga.Snip

open Lib

variable {s : NormalizedString} {cond : SnipCond} {x y : List UInt8} {lo p f : ℕ}

/-! ## The table -/

/-- **The table tells how far the keyword may be moved.** -/
theorem skips_preBmBc (hx : x ≠ []) (c : UInt8) : Skips x c (preBmBc x c) := by
  have hpos := List.length_pos_iff.mpr hx
  have htable : ∀ j ≤ x.length - 1, ∀ c, ∀ d, d = (List.range j).foldl (fun bmBc i =>
      Function.update bmBc (x.getD i 0) (x.length - (i + 1))) (fun _ => x.length) c →
        0 < d ∧ d ≤ x.length ∧ ∀ i < j, x.length < i + 1 + d → x[i]? ≠ some c := by
    intro j hj
    induction j with
    | zero =>
      rintro c d rfl
      exact ⟨hpos, Nat.le_refl _, fun i hi => absurd hi (Nat.not_lt_zero i)⟩
    | succ j ih =>
      rintro c d rfl
      have hlt : j < x.length := by omega
      rw [List.range_succ, List.foldl_append, List.foldl_cons, List.foldl_nil, Function.update_apply,
        List.getD_eq_getElem?_getD, List.getElem?_eq_getElem hlt, Option.getD_some]
      split_ifs with hc
      · exact ⟨by omega, by omega, fun i hi hbehind => by omega⟩
      · obtain ⟨h0, hle, hnone⟩ := ih (by omega) c _ rfl
        refine ⟨h0, hle, fun i hi hbehind => ?_⟩
        rcases Nat.lt_succ_iff_lt_or_eq.mp hi with hi | rfl
        · exact hnone i hi hbehind
        · rw [List.getElem?_eq_getElem hlt]
          exact fun heq => hc (Option.some.inj heq).symm
  obtain ⟨h0, hle, hnone⟩ := htable (x.length - 1) (Nat.le_refl _) c (preBmBc x c) rfl
  exact ⟨h0, hle, fun k hk hlt => hnone (x.length - 1 - k) (by omega) (by omega)⟩

/-- **A condition for the keyword `x`**, whatever searches it was used for. -/
structure Prepared (x : List UInt8) (cond : SnipCond) : Prop where
  keyword : cond.keyword = x
  ne_nil : x ≠ []
  stands : x.length ≠ 1 → ∀ c, x[x.length - 1]? = some c → cond.bmBc c = 0
  moves : x.length ≠ 1 → ∀ c, x[x.length - 1]? ≠ some c → Skips x c (cond.bmBc c)
  shift : x.length ≠ 1 → ∀ c, x[x.length - 1]? = some c → Skips x c cond.shift

theorem prepared_grnSnipCondInit (h : grnSnipCondInit x = some cond) : Prepared x cond := by
  rw [grnSnipCondInit] at h
  by_cases hx : x = []
  · rw [if_pos hx] at h
    cases h
  · rw [if_neg hx] at h
    obtain rfl := Option.some.inj h
    have hlast : ∀ {c}, x[x.length - 1]? = some c ↔ c = x.getD (x.length - 1) 0 := by
      intro c
      have hpos := List.length_pos_iff.mpr hx
      rw [List.getD_eq_getElem?_getD, List.getElem?_eq_getElem (by omega), Option.getD_some, Option.some.injEq, eq_comm]
    refine ⟨rfl, hx, fun hlen c hc => ?_, fun hlen c hc => ?_, fun hlen c hc => ?_⟩
    · simp only [if_pos hlen]
      rw [hlast.mp hc, Function.update_self]
    · simp only [if_pos hlen]
      rw [Function.update_of_ne (fun heq => hc (hlast.mpr heq))]
      exact skips_preBmBc hx _
    · simp only [if_pos hlen]
      rw [← hlast.mp hc]
      exact skips_preBmBc hx _

/-! ## The end of the keyword -/

/-- **A position that is to be reported**: the keyword occurs there, and the position is not inside of a character. -/
def Good (s : NormalizedString) (x : List UInt8) (f : ℕ) : Prop :=
  Occurs x s.normalized f ∧ s.checks[f]? ≠ some 0

instance (s : NormalizedString) (x : List UInt8) (f : ℕ) : Decidable (Good s x f) :=
  inferInstanceAs (Decidable (_ ∧ _))

/-- No occurrence from `lo` on that ends before `p` is to be reported. -/
def Clear (s : NormalizedString) (x : List UInt8) (lo p : ℕ) : Prop :=
  ∀ f, lo ≤ f → f + x.length < p → ¬ Good s x f

/-- The character under the end of the keyword is its last one. -/
def Stands (s : NormalizedString) (x : List UInt8) (p : ℕ) : Prop := s.normalized[p - 1]? = x[x.length - 1]?

/-- **A move passes over no occurrence.** -/
theorem Prepared.delta (h : Prepared x cond) (hlen : x.length ≠ 1) (hp : x.length ≤ p) (hpn : p ≤ s.normalized.length)
    (hclear : Clear s x lo p) : ∃ d, delta cond.bmBc s.normalized p = some d ∧ d ≤ x.length ∧ Clear s x lo (p + d) ∧
      (d = 0 → Stands s x p) := by
  have hpos := List.length_pos_iff.mpr h.ne_nil
  obtain ⟨c, hc⟩ : ∃ c, s.normalized[p - 1]? = some c := ⟨_, List.getElem?_eq_getElem (by omega)⟩
  refine ⟨cond.bmBc c, by rw [Snip.delta, hc, Option.map_some], ?_⟩
  by_cases hlast : x[x.length - 1]? = some c
  · rw [h.stands hlen c hlast]
    exact ⟨Nat.zero_le _, hclear, fun _ => hc.trans hlast.symm⟩
  · have hskips := h.moves hlen c hlast
    refine ⟨hskips.le, fun f hlo hf hgood => ?_, fun h0 => absurd hskips.pos (by omega)⟩
    rcases Nat.lt_trichotomy (f + x.length) p with hlt | heq | hgt
    · exact hclear f hlo hlt hgood
    · have hnot := not_occurs_of_ne h.ne_nil hp hc hlast
      rw [← heq, Nat.add_sub_cancel] at hnot
      exact hnot hgood.1
    · have hnot := hskips.not_occurs hp hc hgt hf
      rw [Nat.add_sub_cancel] at hnot
      exact hnot hgood.1

theorem Prepared.move (h : Prepared x cond) (hlen : x.length ≠ 1) (hp : x.length ≤ p) (hpn : p ≤ s.normalized.length)
    (hclear : Clear s x lo p) : ∃ p', move cond.bmBc s.normalized p = some p' ∧ p ≤ p' ∧ p' ≤ p + x.length ∧
      Clear s x lo p' := by
  obtain ⟨d, hdelta, hd, hclear', -⟩ := h.delta hlen hp hpn hclear
  exact ⟨p + d, by rw [Snip.move, hdelta, Option.map_some], Nat.le_add_right _ _, by omega, hclear'⟩

/-- What some moves do: they go over `b` keywords at most, and go on by `k` at least unless they come to a stand. -/
def Moved (s : NormalizedString) (x : List UInt8) (lo b k : ℕ) (next : ℕ → Option (ℕ × Bool)) : Prop :=
  ∀ p, x.length ≤ p → p + b * x.length ≤ s.normalized.length → Clear s x lo p →
    ∃ p' stands, next p = some (p', stands) ∧ p ≤ p' ∧ p' ≤ p + b * x.length ∧ Clear s x lo p' ∧
      (stands = true → Stands s x p') ∧ (stands = false → p + k ≤ p')

theorem Prepared.moves_spec {b k : ℕ} {next : ℕ → Option (ℕ × Bool)} (h : Prepared x cond) (hlen : x.length ≠ 1)
    (hnext : Moved s x lo b k next) : Moved s x lo (b + 3) (k + 1) (Snip.moves cond.bmBc s.normalized next) := by
  intro p hp hpn hclear
  have hroom : (b + 3) * x.length = b * x.length + 3 * x.length := Nat.add_mul _ _ _
  obtain ⟨d, hdelta, hd, hclear₁, hstands⟩ := h.delta hlen hp (by omega) hclear
  rw [Snip.moves, hdelta, Option.bind_some]
  by_cases h0 : d = 0
  · rw [if_pos h0]
    exact ⟨p, true, rfl, Nat.le_refl _, Nat.le_add_right _ _, hclear, fun _ => hstands h0, fun hfalse => by cases hfalse⟩
  · rw [if_neg h0]
    obtain ⟨p₂, hmove₂, hle₂, hle₂', hclear₂⟩ := h.move hlen (by omega) (by omega) hclear₁
    obtain ⟨p₃, hmove₃, hle₃, hle₃', hclear₃⟩ := h.move hlen (by omega) (by omega) hclear₂
    obtain ⟨p', stands, hnext', hle, hle', hclear', hstands', hfar⟩ := hnext p₃ (by omega) (by omega) hclear₃
    refine ⟨p', stands, ?_, by omega, by omega, hclear', hstands', fun hfalse => ?_⟩
    · rw [hmove₂, Option.bind_some, hmove₃, Option.bind_some]
      exact hnext'
    · have := hfar hfalse
      omega

/-- **Ten moves** stay within ten keywords. -/
theorem Prepared.tenMoves (h : Prepared x cond) (hlen : x.length ≠ 1) :
    Moved s x lo 10 3 (tenMoves cond.bmBc s.normalized) := by
  have hdone : Moved s x lo 0 0 fun p => some (p, false) := fun p _ _ hclear =>
    ⟨p, false, rfl, Nat.le_refl _, Nat.le_add_right _ _, hclear, fun hfalse => (Bool.false_ne_true hfalse).elim,
      fun _ => Nat.le_refl _⟩
  have hnine := h.moves_spec hlen (h.moves_spec hlen (h.moves_spec hlen hdone))
  intro p hp hpn hclear
  obtain ⟨p₁, hmove, hle, hle', hclear₁⟩ := h.move hlen hp (by omega) hclear
  obtain ⟨p', stands, hnext, hle₂, hle₂', hclear', hstands, hfar⟩ := hnine p₁ (by omega) (by omega) hclear₁
  refine ⟨p', stands, ?_, by omega, by omega, hclear', hstands, fun hfalse => ?_⟩
  · rw [Snip.tenMoves, hmove]
    exact hnext
  · have := hfar hfalse
    omega

/-! ## The comparison -/

theorem compareLoop_spec {count i : ℕ} (hp : x.length ≤ p) (hpn : p ≤ y.length) (hi : 0 < i)
    (hcount : i + count ≤ x.length + 1) : ∃ same, compareLoop x y p count i = some same ∧
      (same = true ↔ ∀ j, i ≤ j → j < i + count → y[p - j]? = x[x.length - j]?) := by
  induction count generalizing i with
  | zero => exact ⟨true, rfl, iff_of_true rfl fun j hle hlt => by omega⟩
  | succ count ih =>
    obtain ⟨b, hb⟩ : ∃ b, y[p - i]? = some b := ⟨_, List.getElem?_eq_getElem (by omega)⟩
    rw [compareLoop, hb, Option.bind_some]
    by_cases hsame : x[x.length - i]? = some b
    · rw [if_pos hsame]
      obtain ⟨same, hloop, hiff⟩ := ih (Nat.succ_pos i) (by omega)
      refine ⟨same, hloop, hiff.trans ⟨fun h j hle hlt => ?_, fun h j hle hlt => h j (by omega) (by omega)⟩⟩
      rcases hle.eq_or_lt with rfl | hlt'
      · exact hb.trans hsame.symm
      · exact h j hlt' (by omega)
    · rw [if_neg hsame]
      refine ⟨false, rfl, iff_of_false Bool.false_ne_true fun h => hsame ?_⟩
      rw [← h i (Nat.le_refl i) (by omega), hb]

/-- The occurrence that ends at `p`, from its end on. -/
theorem occurs_sub_iff (hp : x.length ≤ p) :
    Occurs x y (p - x.length) ↔ ∀ j, 1 ≤ j → j ≤ x.length → y[p - j]? = x[x.length - j]? := by
  rw [occurs_iff]
  constructor
  · intro h j h1 hj
    have hat := h (x.length - j) (by omega)
    rwa [show p - x.length + (x.length - j) = p - j by omega] at hat
  · intro h i hi
    have hat := h (x.length - i) (by omega) (by omega)
    rwa [show p - (x.length - i) = p - x.length + i by omega, show x.length - (x.length - i) = i by omega] at hat

/-- **The comparison** finds the position if it is to be reported. -/
theorem bmCompare_spec (hlen : 2 ≤ x.length) (hp : x.length ≤ p) (hpn : p ≤ s.normalized.length)
    (hstands : Stands s x p) :
    bmCompare s x p = some (if Good s x (p - x.length) then some (p - x.length) else none) := by
  have hoccurs : Occurs x s.normalized (p - x.length) ↔ s.normalized[p - 2]? = x[x.length - 2]? ∧
      ∀ j, 3 ≤ j → j < 3 + (x.length - 2) → s.normalized[p - j]? = x[x.length - j]? := by
    rw [occurs_sub_iff hp]
    constructor
    · exact fun h => ⟨h 2 (by omega) hlen, fun j hle hlt => h j (by omega) (by omega)⟩
    · rintro ⟨htwo, hrest⟩ j h1 hj
      rcases Nat.lt_or_ge j 3 with hlt | hge
      · interval_cases j
        · exact hstands
        · exact htwo
      · exact hrest j hge (by omega)
  obtain ⟨b, hb⟩ : ∃ b, s.normalized[p - 2]? = some b := ⟨_, List.getElem?_eq_getElem (by omega)⟩
  obtain ⟨check, hcheck⟩ : ∃ check, s.checks[p - x.length]? = some check :=
    ⟨_, List.getElem?_eq_getElem (by rw [s.length_checks]; omega)⟩
  rw [hb] at hoccurs
  rw [bmCompare, hb, Option.bind_some]
  by_cases hsecond : x[x.length - 2]? = some b
  · rw [if_pos hsecond]
    obtain ⟨same, hloop, hsame⟩ := @compareLoop_spec x s.normalized p (x.length - 2) 3 hp hpn (by omega) (by omega)
    rw [hloop, Option.bind_some]
    cases same with
    | true =>
      have hin : Occurs x s.normalized (p - x.length) := hoccurs.mpr ⟨hsecond.symm, hsame.mp rfl⟩
      rw [if_pos rfl, hcheck, Option.map_some]
      refine congrArg some (if_congr ?_ rfl rfl)
      rw [Good, hcheck, and_iff_right hin, Ne, Ne, Option.some.injEq]
    | false =>
      rw [if_neg Bool.false_ne_true, if_neg fun hgood => ?_]
      exact Bool.false_ne_true (hsame.mpr (hoccurs.mp hgood.1).2)
  · rw [if_neg hsecond, if_neg fun hgood => hsecond (hoccurs.mp hgood.1).1.symm]

/-- Behind a comparison that finds nothing the keyword goes on by its shift. -/
theorem Prepared.clear_shift (h : Prepared x cond) (hlen : x.length ≠ 1) (hp : x.length ≤ p)
    (hstands : Stands s x p) (hclear : Clear s x lo p) (hnot : ¬ Good s x (p - x.length)) :
    Clear s x lo (p + cond.shift) := by
  have hpos := List.length_pos_iff.mpr h.ne_nil
  obtain ⟨c, hc⟩ : ∃ c, x[x.length - 1]? = some c := ⟨_, List.getElem?_eq_getElem (by omega)⟩
  intro f hlo hf hgood
  rcases Nat.lt_trichotomy (f + x.length) p with hlt | heq | hgt
  · exact hclear f hlo hlt hgood
  · rw [← heq, Nat.add_sub_cancel] at hnot
    exact hnot hgood
  · have hpast := (h.shift hlen c hc).not_occurs hp (hstands.trans hc) hgt hf
    rw [Nat.add_sub_cancel] at hpast
    exact hpast hgood.1

/-- A position at which the end of the keyword comes to, with nothing before it, is the next one. -/
theorem next_of_clear (hlo : lo + x.length ≤ p) (hclear : Clear s x lo p) (hgood : Good s x (p - x.length)) :
    Next (Good s x) lo (some (p - x.length)) :=
  ⟨by omega, hgood, fun g hle hlt => hclear g hle (by omega)⟩

/-! ## The loops -/

/-- What a loop ends with is the next position, or a place that the search may go on from. -/
def Ends (s : NormalizedString) (x : List UInt8) (lo : ℕ) : Outcome → Prop
  | .found f => Next (Good s x) lo (some f)
  | .stopped p => lo + x.length ≤ p ∧ Clear s x lo p

/-- **The loop with ten moves.** -/
theorem Prepared.fastLoop_spec {limit : ℤ} {fuel : ℕ} (h : Prepared x cond) (hlen : 2 ≤ x.length)
    (hlimit : limit ≤ s.normalized.length - 11 * x.length) (hlo : lo + x.length ≤ p) (hclear : Clear s x lo p)
    (hfuel : 0 < fuel) (henough : s.normalized.length + 2 ≤ fuel + p) :
    ∃ outcome, fastLoop s cond limit fuel p = some outcome ∧ Ends s x lo outcome := by
  induction fuel generalizing p with
  | zero => exact absurd hfuel (Nat.lt_irrefl 0)
  | succ fuel ih =>
    have hone : x.length ≠ 1 := by omega
    rw [fastLoop]
    by_cases hp : (p : ℤ) ≤ limit
    · obtain ⟨p', stands, hmoves, hle, hle', hclear', hstands, hfar⟩ :=
        h.tenMoves hone p (by omega) (by omega) hclear
      rw [if_pos hp, hmoves, Option.bind_some]
      cases stands with
      | true =>
        have hat := hstands rfl
        simp only [if_true, h.keyword]
        rw [bmCompare_spec hlen (by omega) (by omega) hat, Option.bind_some]
        by_cases hgood : Good s x (p' - x.length)
        · rw [if_pos hgood]
          exact ⟨_, rfl, next_of_clear (by omega) hclear' hgood⟩
        · obtain ⟨c, hc⟩ : ∃ c, x[x.length - 1]? = some c := ⟨_, List.getElem?_eq_getElem (by omega)⟩
          have hshift := (h.shift hone c hc).pos
          rw [if_neg hgood]
          exact ih (by omega) (h.clear_shift hone (by omega) hat hclear' hgood) (by omega) (by omega)
      | false =>
        have hgo := hfar rfl
        simp only [Bool.false_eq_true, if_false]
        exact ih (by omega) hclear' (by omega) (by omega)
    · rw [if_neg hp]
      exact ⟨_, rfl, hlo, hclear⟩

/-- **The loop that looks at the limit with each move** goes on to the end of the text. -/
theorem Prepared.slowLoop_spec {fuel : ℕ} (h : Prepared x cond) (hlen : 2 ≤ x.length) (hlo : lo + x.length ≤ p)
    (hclear : Clear s x lo p) (hfuel : 0 < fuel) (henough : s.normalized.length + 2 ≤ fuel + p) :
    ∃ outcome, slowLoop s cond fuel p = some outcome ∧
      ((∃ f, outcome = .found f ∧ Next (Good s x) lo (some f)) ∨
        ∃ p', outcome = .stopped p' ∧ Next (Good s x) lo none) := by
  induction fuel generalizing p with
  | zero => exact absurd hfuel (Nat.lt_irrefl 0)
  | succ fuel ih =>
    have hone : x.length ≠ 1 := by omega
    rw [slowLoop]
    by_cases hp : p ≤ s.normalized.length
    · obtain ⟨d, hdelta, hd, hclear', hstands⟩ := h.delta hone (by omega) hp hclear
      rw [if_pos hp, hdelta, Option.bind_some]
      by_cases h0 : d = 0
      · have hat := hstands h0
        rw [if_pos h0, h.keyword, bmCompare_spec hlen (by omega) hp hat, Option.bind_some]
        by_cases hgood : Good s x (p - x.length)
        · rw [if_pos hgood]
          exact ⟨_, rfl, .inl ⟨_, rfl, next_of_clear hlo hclear hgood⟩⟩
        · obtain ⟨c, hc⟩ : ∃ c, x[x.length - 1]? = some c := ⟨_, List.getElem?_eq_getElem (by omega)⟩
          have hshift := (h.shift hone c hc).pos
          rw [if_neg hgood]
          exact ih (by omega) (h.clear_shift hone (by omega) hat hclear hgood) (by omega) (by omega)
      · rw [if_neg h0]
        exact ih (by omega) hclear' (by omega) (by omega)
    · rw [if_neg hp]
      refine ⟨_, rfl, .inr ⟨p, rfl, fun f hle hgood => hclear f hle ?_ hgood⟩⟩
      have hend := hgood.1.add_le h.ne_nil
      omega

/-- **The search finds the next position** that is to be reported, if the products do not wrap around. -/
theorem Prepared.search_spec (h : Prepared x cond) (hlen : 2 ≤ x.length) (hwide : 11 * x.length < 2 ^ 32) :
    (∃ f, search s cond = some (.found f) ∧ Next (Good s x) cond.found (some f)) ∨
      ∃ p, search s cond = some (.stopped p) ∧ Next (Good s x) cond.found none := by
  have hstart : Clear s x cond.found (x.length + cond.found) := fun f hle hlt => absurd hlt (by omega)
  rw [search]
  simp only [h.keyword, Nat.mod_eq_of_lt hwide]
  have hfast : ∃ outcome, (if ((12 * x.length % 2 ^ 32 : ℕ) : ℤ) < s.normalized.length - cond.found then
      fastLoop s cond (s.normalized.length - (11 * x.length : ℕ)) (s.normalized.length + 2) (x.length + cond.found)
        else some (.stopped (x.length + cond.found))) = some outcome ∧ Ends s x cond.found outcome := by
    split_ifs
    · exact h.fastLoop_spec hlen (by push_cast; exact le_refl _) (by omega) hstart (by omega) (by omega)
    · exact ⟨_, rfl, by omega, hstart⟩
  obtain ⟨outcome, heq, hends⟩ := hfast
  rw [heq, Option.bind_some]
  cases outcome with
  | found f => exact .inl ⟨f, rfl, hends⟩
  | stopped p =>
    obtain ⟨hle, hclear⟩ := hends
    obtain ⟨outcome, hslow, ⟨f, rfl, hnext⟩ | ⟨p', rfl, hnext⟩⟩ :=
      @Prepared.slowLoop_spec s cond x cond.found p (s.normalized.length + 2) h hlen hle hclear (by omega) (by omega)
    · exact .inl ⟨f, hslow, hnext⟩
    · exact .inr ⟨p', hslow, hnext⟩

end Groonga.Snip
