import Mathlib

/-!
# N-grams

The n-grams of a list are the parts of length `n` at each position; those at the end are
shorter. A list of at least `n` elements is a part of another one exactly when its n-grams of
full length are there one after the other, and a shorter one exactly when some n-gram begins
with it. A run of n-grams does not go over a mark that none of them is.
-/

namespace Groonga.Lib

variable {α : Type} {n : ℕ} {xs : List α}

/-- The n-grams at all positions. -/
def grams (n : ℕ) : List α → List (List α)
  | [] => []
  | x :: xs => (x :: xs).take n :: grams n xs

@[simp] theorem length_grams (n : ℕ) (xs : List α) : (grams n xs).length = xs.length := by
  induction xs with
  | nil => rfl
  | cons x xs ih => simp [grams, ih]

/-- The n-gram at a position. -/
theorem getElem?_grams {k : ℕ} {g : List α} :
    (grams n xs)[k]? = some g ↔ k < xs.length ∧ g = (xs.drop k).take n := by
  induction xs generalizing k with
  | nil => simp [grams]
  | cons x xs ih =>
    cases k with
    | zero => simp [grams, eq_comm]
    | succ k => simp [grams, ih]

theorem infix_iff_exists_drop {q d : List α} : q <:+: d ↔ ∃ s, q <+: d.drop s := by
  constructor
  · rintro ⟨pre, post, rfl⟩
    exact ⟨pre.length, by simp⟩
  · rintro ⟨s, hs⟩
    exact hs.isInfix.trans (List.drop_suffix s d).isInfix

/-! ## Runs -/

/-- From the position `s` on, `l + 1` things are there one after the other. -/
def RunsAt {β : Type} (toks : List β) (l : ℕ) (R : ℕ → β → Prop) (s : ℕ) : Prop :=
  ∀ k ≤ l, ∃ tok, toks[s + k]? = some tok ∧ R k tok

section Runs

variable {β : Type} {toks xs' ys : List β} {l s : ℕ} {R : ℕ → β → Prop} {m : β}

theorem RunsAt.left (h : RunsAt xs' l R s) (ys : List β) : RunsAt (xs' ++ ys) l R s := by
  intro k hk
  obtain ⟨tok, htok, hR⟩ := h k hk
  refine ⟨tok, ?_, hR⟩
  obtain ⟨hlt, -⟩ := List.getElem?_eq_some_iff.mp htok
  rw [List.getElem?_append_left hlt, htok]

theorem RunsAt.right (h : RunsAt ys l R s) (xs' : List β) :
    RunsAt (xs' ++ ys) l R (xs'.length + s) := by
  intro k hk
  obtain ⟨tok, htok, hR⟩ := h k hk
  refine ⟨tok, ?_, hR⟩
  rw [List.getElem?_append_right (by omega), Nat.add_assoc, Nat.add_sub_cancel_left, htok]

/-- **A mark parts the runs.** -/
theorem exists_runsAt_append_cons (hm : ∀ k ≤ l, ¬ R k m) :
    (∃ s, RunsAt (xs' ++ m :: ys) l R s) ↔ (∃ s, RunsAt xs' l R s) ∨ ∃ s, RunsAt ys l R s := by
  constructor
  · rintro ⟨s, h⟩
    rcases Nat.lt_or_ge s (xs'.length + 1) with hs | hs
    · -- the run begins in front of the mark, and so it ends there
      have hend : s + l < xs'.length := by
        refine Nat.lt_of_not_ge fun hle => ?_
        obtain ⟨tok, htok, hR⟩ := h (xs'.length - s) (by omega)
        rw [List.getElem?_append_right (by omega)] at htok
        have hzero : s + (xs'.length - s) - xs'.length = 0 := by omega
        rw [hzero, List.getElem?_cons_zero, Option.some.injEq] at htok
        subst htok
        exact hm _ (by omega) hR
      refine .inl ⟨s, fun k hk => ?_⟩
      obtain ⟨tok, htok, hR⟩ := h k hk
      rw [List.getElem?_append_left (by omega)] at htok
      exact ⟨tok, htok, hR⟩
    · refine .inr ⟨s - (xs'.length + 1), fun k hk => ?_⟩
      obtain ⟨tok, htok, hR⟩ := h k hk
      rw [List.getElem?_append_right (by omega)] at htok
      have hsucc : s + k - xs'.length = s - (xs'.length + 1) + k + 1 := by omega
      rw [hsucc, List.getElem?_cons_succ] at htok
      exact ⟨tok, htok, hR⟩
  · rintro (⟨s, h⟩ | ⟨s, h⟩)
    · exact ⟨s, h.left (m :: ys)⟩
    · refine ⟨(xs' ++ [m]).length + s, ?_⟩
      have hright := h.right (xs' ++ [m])
      rwa [List.append_assoc, List.singleton_append] at hright

end Runs

/-! ## Phrases -/

/-- What a thing has to be for the part of `q` at `k`: the n-gram there or, if `q` is shorter
than an n-gram, something that begins with `q`. -/
def Found (n : ℕ) (q : List α) (k : ℕ) (g : List α) : Prop :=
  g = (q.drop k).take n ∨ (q.length < n ∧ q <+: g)

/-- **The n-grams of `q` one after the other**, or an n-gram that begins with `q`. -/
theorem runsAt_grams_iff {q d : List α} {s : ℕ} (hn : 1 ≤ n) (hne : q ≠ []) :
    RunsAt (grams n d) (q.length - n) (Found n q) s ↔ q <+: d.drop s := by
  have hpos := List.length_pos_iff.mpr hne
  constructor
  · intro h
    rcases Nat.lt_or_ge q.length n with hshort | hlong
    · obtain ⟨g, hg, hfound⟩ := h 0 (Nat.zero_le _)
      obtain ⟨-, rfl⟩ := getElem?_grams.mp hg
      have hstart : q <+: (d.drop s).take n := by
        rcases hfound with heq | ⟨-, hstart⟩
        · have hq : (q.drop 0).take n = q := List.take_of_length_le (Nat.le_of_lt hshort)
          rw [hq, Nat.add_zero] at heq
          rw [heq]
        · exact hstart
      exact hstart.trans (List.take_prefix n _)
    · refine List.prefix_iff_getElem?.mpr fun i hi => ?_
      -- the element `i` is in the n-gram at `i`, or in the last one
      have hk : min i (q.length - n) ≤ q.length - n := Nat.min_le_right _ _
      obtain ⟨g, hg, hfound⟩ := h _ hk
      have heq := hfound.resolve_right fun hlt => by omega
      obtain ⟨-, hgram⟩ := getElem?_grams.mp hg
      rw [heq] at hgram
      have hget := congrArg (·[i - min i (q.length - n)]?) hgram
      simp only [List.getElem?_take, List.getElem?_drop] at hget
      rw [if_pos (by omega), if_pos (by omega)] at hget
      rw [List.getElem?_drop, ← List.getElem?_eq_getElem hi]
      have hi' : min i (q.length - n) + (i - min i (q.length - n)) = i := by omega
      have hs : s + min i (q.length - n) + (i - min i (q.length - n)) = s + i := by omega
      rw [hi', hs] at hget
      exact hget.symm
  · rintro ⟨r, hr⟩ k hk
    have hlen := congrArg List.length hr
    rw [List.length_append, List.length_drop] at hlen
    refine ⟨(d.drop (s + k)).take n, getElem?_grams.mpr ⟨by omega, rfl⟩, ?_⟩
    rcases Nat.lt_or_ge q.length n with hshort | hlong
    · obtain rfl : k = 0 := by omega
      rw [Nat.add_zero, ← hr, List.take_append, List.take_of_length_le (by omega)]
      exact .inr ⟨hshort, List.prefix_append q _⟩
    · refine .inl ?_
      rw [← List.drop_drop, ← hr, List.drop_append_of_le_length (by omega),
        List.take_append_of_le_length (by rw [List.length_drop]; omega)]

/-- Only the n-grams up to the first one that reaches the end. -/
theorem runsAt_take_grams_iff {q d : List α} {s : ℕ} (hn : 1 ≤ n) (hne : q ≠ []) :
    RunsAt ((grams n d).take (d.length - n + 1)) (q.length - n) (Found n q) s ↔
      s ≤ d.length - n ∧ q <+: d.drop s := by
  rw [← runsAt_grams_iff hn hne]
  have hpos := List.length_pos_iff.mpr hne
  constructor
  · intro h
    refine ⟨?_, fun k hk => ?_⟩
    · obtain ⟨g, hg, -⟩ := h 0 (Nat.zero_le _)
      obtain ⟨hlt, -⟩ := List.getElem?_eq_some_iff.mp hg
      rw [List.length_take] at hlt
      omega
    · obtain ⟨g, hg, hfound⟩ := h k hk
      obtain ⟨hlt, -⟩ := List.getElem?_eq_some_iff.mp hg
      rw [List.length_take] at hlt
      rw [List.getElem?_take_of_lt (by omega)] at hg
      exact ⟨g, hg, hfound⟩
  · rintro ⟨hs, h⟩ k hk
    obtain ⟨g, hg, hfound⟩ := h k hk
    refine ⟨g, ?_, hfound⟩
    rw [List.getElem?_take_of_lt, hg]
    -- the rest of `q` is behind the position, and so the n-gram there ends in time
    have hlen := ((runsAt_grams_iff hn hne).mp h).length_le
    rw [List.length_drop] at hlen
    omega

theorem exists_runsAt_grams_iff {q d : List α} (hn : 1 ≤ n) (hne : q ≠ []) :
    (∃ s, RunsAt (grams n d) (q.length - n) (Found n q) s) ↔ q <:+: d := by
  rw [infix_iff_exists_drop]
  exact exists_congr fun s => runsAt_grams_iff hn hne

end Groonga.Lib
