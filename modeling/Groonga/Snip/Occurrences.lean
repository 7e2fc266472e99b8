import Groonga.Snip.Search
import Mathlib

/-!
# The occurrences of a keyword

A call reports the next position, with its offsets in the original text: the offset of the character that holds it, and
the offset behind the keyword. The sums start at the character of the last report, which is never behind the next
position.
-/

namespace Groonga.Snip

open Lib

variable {s : NormalizedString} {cond : SnipCond} {x : List UInt8} {checks : List ℤ} {i count f : ℕ}

/-! ## Sums of checks -/

/-- The sum of the positive checks before a position. -/
def offsetBefore (checks : List ℤ) (i : ℕ) : ℕ := ((checks.take i).map Int.toNat).sum

/-- **The head of the character that holds a position**: the last positive check up to there. -/
structure IsHead (checks : List ℤ) (head f : ℕ) : Prop where
  le : head ≤ f
  pos : ∃ check ∈ checks[head]?, 0 < check
  last : ∀ i, head < i → i ≤ f → ∀ check ∈ checks[i]?, ¬ 0 < check

theorem offsetBefore_succ {check : ℤ} (h : checks[i]? = some check) :
    offsetBefore checks (i + 1) = offsetBefore checks i + check.toNat := by
  rw [offsetBefore, List.take_add_one, h, Option.toList_some, List.map_append, List.sum_append]
  simp [offsetBefore]

/-- Offsets are no larger than 2^15 for each byte. -/
theorem offsetBefore_lt (s : NormalizedString) (i : ℕ) : offsetBefore s.checks i < 2 ^ 48 := by
  have hle : ((s.checks.take i).map Int.toNat).sum ≤ ((s.checks.take i).map Int.toNat).length * 2 ^ 15 := by
    rw [← smul_eq_mul]
    refine List.sum_le_card_nsmul _ _ fun n hn => ?_
    obtain ⟨check, hcheck, rfl⟩ := List.mem_map.mp hn
    have hrange := s.checks_range check (List.mem_of_mem_take hcheck)
    omega
  have hlength : ((s.checks.take i).map Int.toNat).length < 2 ^ 32 := by
    rw [List.length_map, List.length_take, s.length_checks]
    exact (Nat.min_le_right _ _).trans_lt s.length_lt
  rw [offsetBefore]
  omega

theorem sizeT_eq {n : ℕ} (h : n < 2 ^ 64) : sizeT n = n := by
  rw [sizeT]
  omega

/-- **The loop over the checks** adds up to the offset before the position behind, and comes to the last head. -/
theorem addChecks_spec {head : ℕ} (hcount : i + count ≤ s.checks.length) :
    ∃ head', addChecks s.checks count i (offsetBefore s.checks i, head) =
        some (offsetBefore s.checks (i + count), head') ∧
      ((head' = head ∧ ∀ j, i ≤ j → j < i + count → ∀ check ∈ s.checks[j]?, ¬ 0 < check) ∨
        i ≤ head' ∧ head' < i + count ∧ (∃ check ∈ s.checks[head']?, 0 < check) ∧
          ∀ j, head' < j → j < i + count → ∀ check ∈ s.checks[j]?, ¬ 0 < check) := by
  induction count generalizing i head with
  | zero => exact ⟨head, rfl, .inl ⟨rfl, fun j hle hlt => by omega⟩⟩
  | succ count ih =>
    obtain ⟨check, hcheck⟩ : ∃ check, s.checks[i]? = some check := ⟨_, List.getElem?_eq_getElem (by omega)⟩
    have hnext := offsetBefore_succ hcheck
    have hsmall := offsetBefore_lt s (i + 1)
    rw [addChecks, hcheck, Option.bind_some, show i + (count + 1) = i + 1 + count by omega]
    by_cases hpos : 0 < check
    · have hsum : sizeT ((offsetBefore s.checks i : ℤ) + check) = offsetBefore s.checks (i + 1) := by
        have hcast : (offsetBefore s.checks i : ℤ) + check = (offsetBefore s.checks (i + 1) : ℕ) := by
          rw [hnext]
          push_cast
          omega
        rw [hcast, sizeT_eq (by omega)]
      rw [if_pos hpos]
      simp only [hsum]
      obtain ⟨head', hloop, ⟨rfl, hnone⟩ | ⟨hle, hlt, hat, hlast⟩⟩ := @ih (i + 1) i (by omega)
      · refine ⟨_, hloop, .inr ⟨Nat.le_refl _, by omega, ⟨check, hcheck, hpos⟩, fun j hj hlt => ?_⟩⟩
        exact hnone j hj hlt
      · exact ⟨head', hloop, .inr ⟨by omega, hlt, hat, hlast⟩⟩
    · have hsum : offsetBefore s.checks i = offsetBefore s.checks (i + 1) := by
        rw [hnext]
        omega
      rw [if_neg hpos, hsum]
      obtain ⟨head', hloop, ⟨rfl, hnone⟩ | ⟨hle, hlt, hat, hlast⟩⟩ := @ih (i + 1) head (by omega)
      · refine ⟨_, hloop, .inl ⟨rfl, fun j hj hlt check' hcheck' => ?_⟩⟩
        rcases hj.eq_or_lt with rfl | hj
        · obtain rfl := Option.some.inj (hcheck.symm.trans hcheck')
          exact hpos
        · exact hnone j hj hlt check' hcheck'
      · exact ⟨head', hloop, .inr ⟨by omega, hlt, hat, hlast⟩⟩

/-- Positions without a positive check add nothing. -/
theorem offsetBefore_eq_of_not_pos {j : ℕ} (hle : i ≤ j) (hj : j ≤ s.checks.length)
    (hnone : ∀ k, i ≤ k → k < j → ∀ check ∈ s.checks[k]?, ¬ 0 < check) :
    offsetBefore s.checks j = offsetBefore s.checks i := by
  induction j, hle using Nat.le_induction with
  | base => rfl
  | succ j hle ih =>
    have hcheck : s.checks[j]? = some s.checks[j] := List.getElem?_eq_getElem (by omega)
    have hnot := hnone j hle (Nat.lt_succ_self j) _ hcheck
    rw [offsetBefore_succ hcheck, ih (by omega) fun k hk hlt => hnone k hk (by omega)]
    omega

/-! ## Reports -/

/-- **The sums of the next report** start at the head of the last one, or at the first position. -/
structure Resumes (s : NormalizedString) (cond : SnipCond) : Prop where
  offset : cond.lastOffset = offsetBefore s.checks cond.lastFound
  le : cond.lastFound ≤ cond.found
  head : cond.lastFound = 0 ∨ cond.lastFound < cond.found ∧ ∃ check ∈ s.checks[cond.lastFound]?, 0 < check

/-- The start in the original text: leading spaces may be left out. -/
def startOf (s : NormalizedString) (skipSpaces : Bool) (offset : ℕ) : ℕ :=
  if skipSpaces then skipLeadingSpaces s.original s.encoding s.original.length offset else offset

/-- **A report has the offsets of its occurrence**: the sum of the positive checks before the character that holds the
position, and the sum up to the end of the keyword. -/
def Located (s : NormalizedString) (skipSpaces : Bool) (x : List UInt8) (r : ℕ × ℕ × ℕ) : Prop :=
  ∃ head, IsHead s.checks head r.1 ∧ r.2.1 = startOf s skipSpaces (offsetBefore s.checks head) ∧
    r.2.2 = offsetBefore s.checks (r.1 + x.length)

/-- What a search does not change. -/
structure Used (cond₀ cond : SnipCond) : Prop where
  keyword : cond.keyword = cond₀.keyword
  bmBc : cond.bmBc = cond₀.bmBc
  shift : cond.shift = cond₀.shift

theorem Prepared.used {cond₀ : SnipCond} (h : Prepared x cond₀) (hused : Used cond₀ cond) : Prepared x cond := by
  obtain ⟨hkeyword, hbmBc, hshift⟩ := hused
  refine ⟨hkeyword.trans h.keyword, h.ne_nil, ?_, ?_, ?_⟩
  · rw [hbmBc]
    exact h.stands
  · rw [hbmBc]
    exact h.moves
  · rw [hshift]
    exact h.shift

theorem used_grnSnipCondReinit (cond : SnipCond) : Used cond (grnSnipCondReinit cond) := ⟨rfl, rfl, rfl⟩

theorem resumes_grnSnipCondReinit (s : NormalizedString) (cond : SnipCond) : Resumes s (grnSnipCondReinit cond) :=
  ⟨rfl, Nat.le_refl 0, .inl rfl⟩

/-- **A report** has the right offsets, and the next one goes on from it. -/
theorem Resumes.report {shift : ℕ} {check : ℤ} (h : Resumes s cond) (skipSpaces : Bool) (hle : cond.found ≤ f)
    (hpos : 0 < cond.keyword.length) (hend : f + cond.keyword.length ≤ s.checks.length)
    (hcheck : s.checks[f]? = some check) (hne : check ≠ 0) (hshift : 0 < shift)
    (hhead : ∃ g ≤ f, ∃ check ∈ s.checks[g]?, 0 < check) :
    ∃ cond', report s skipSpaces cond f shift = some cond' ∧ Used cond cond' ∧ cond'.stopflag = cond.stopflag ∧
      cond'.found = f + shift ∧ Resumes s cond' ∧
        Located s skipSpaces cond.keyword (f, cond'.startOffset, cond'.endOffset) := by
  obtain ⟨head, hloop, hlast⟩ := @addChecks_spec s cond.lastFound (f - cond.lastFound) cond.foundAlphaHead
    (by have := h.le; omega)
  have hstart := h.le
  rw [show cond.lastFound + (f - cond.lastFound) = f by omega] at hloop hlast
  rw [Snip.report, h.offset, hloop, Option.bind_some, hcheck, Option.bind_some]
  rcases lt_or_gt_of_ne hne with hneg | hgt
  · -- the position is in a character that comes from the same original one as the one before
    have hin : cond.lastFound ≤ head ∧ head < f ∧ (∃ check ∈ s.checks[head]?, 0 < check) ∧
        ∀ j, head < j → j < f → ∀ check ∈ s.checks[j]?, ¬ 0 < check := by
      refine hlast.resolve_left fun hnone => ?_
      obtain ⟨g, hg, check', hcheck', hpos'⟩ := hhead
      have hlt : g < f := by
        refine lt_of_le_of_ne hg fun heq => ?_
        subst heq
        obtain rfl := Option.some.inj (hcheck.symm.trans hcheck')
        exact absurd hneg (not_lt.mpr hpos'.le)
      rcases Nat.lt_or_ge g cond.lastFound with hbefore | hbehind
      · obtain hzero | ⟨hlt', check'', hcheck'', hpos''⟩ := h.head
        · omega
        · exact hnone.2 cond.lastFound (Nat.le_refl _) (by omega) check'' hcheck'' hpos''
      · exact hnone.2 g hbehind hlt check' hcheck' hpos'
    obtain ⟨hge, hlt, ⟨first, hfirst, hfirst0⟩, hafter⟩ := hin
    have hback : sizeT ((offsetBefore s.checks f : ℤ) - first) = offsetBefore s.checks head := by
      have hsame := @offsetBefore_eq_of_not_pos s (head + 1) f hlt (by omega) fun k hk hkf => hafter k hk hkf
      have hsmall := offsetBefore_lt s head
      have hcast : (offsetBefore s.checks f : ℤ) - first = (offsetBefore s.checks head : ℕ) := by
        rw [hsame, offsetBefore_succ hfirst]
        push_cast
        omega
      rw [hcast, sizeT_eq (by omega)]
    obtain ⟨head', hloop', -⟩ := @addChecks_spec s head (f + cond.keyword.length - head) head (by omega)
    rw [show head + (f + cond.keyword.length - head) = f + cond.keyword.length by omega] at hloop'
    rw [if_pos hneg, hfirst, Option.map_some, Option.bind_some]
    simp only [hback]
    rw [hloop', Option.map_some]
    refine ⟨_, rfl, ⟨rfl, rfl, rfl⟩, rfl, rfl, ⟨rfl, ?_, .inr ⟨?_, first, hfirst, hfirst0⟩⟩, head,
      ⟨hlt.le, ⟨first, hfirst, hfirst0⟩, fun i hi hif check' hcheck' hpos' => ?_⟩, rfl, rfl⟩
    · show head ≤ f + shift
      omega
    · show head < f + shift
      omega
    · rcases hif.eq_or_lt with rfl | hif
      · obtain rfl := Option.some.inj (hcheck.symm.trans hcheck')
        exact absurd hneg (not_lt.mpr hpos'.le)
      · exact hafter i hi hif check' hcheck' hpos'
  · -- the position is the head of a character
    obtain ⟨head', hloop', -⟩ := @addChecks_spec s f (f + cond.keyword.length - f) head (by omega)
    rw [show f + (f + cond.keyword.length - f) = f + cond.keyword.length by omega] at hloop'
    rw [if_neg (not_lt.mpr hgt.le), Option.bind_some]
    simp only
    rw [hloop', Option.map_some]
    refine ⟨_, rfl, ⟨rfl, rfl, rfl⟩, rfl, rfl, ⟨rfl, ?_, .inr ⟨?_, check, hcheck, hgt⟩⟩, f,
      ⟨Nat.le_refl f, ⟨check, hcheck, hgt⟩, fun i hi hif => absurd hi (Nat.not_lt.mpr hif)⟩, rfl, rfl⟩
    · show f ≤ f + shift
      omega
    · show f < f + shift
      omega

/-! ## Keywords of one byte -/

theorem memchr_spec (y : List UInt8) (c : UInt8) (lo : ℕ) :
    (∃ f, memchr y c lo = some f ∧ lo ≤ f ∧ y[f]? = some c ∧ ∀ g, lo ≤ g → g < f → y[g]? ≠ some c) ∨
      memchr y c lo = none ∧ ∀ g, lo ≤ g → y[g]? ≠ some c := by
  rw [memchr]
  cases hfind : (y.drop lo).findIdx? (· = c) with
  | none =>
    refine .inr ⟨rfl, fun g hg hc => ?_⟩
    rw [List.findIdx?_eq_none_iff] at hfind
    have hmem : c ∈ y.drop lo := by
      rw [List.mem_iff_getElem?]
      exact ⟨g - lo, by rw [List.getElem?_drop, show lo + (g - lo) = g by omega, hc]⟩
    exact absurd (hfind c hmem) (by simp)
  | some k =>
    obtain ⟨hk, hat, hbefore⟩ := List.findIdx?_eq_some_iff_getElem.mp hfind
    rw [List.length_drop] at hk
    refine .inl ⟨lo + k, rfl, Nat.le_add_right _ _, ?_, fun g hlo hg hc => ?_⟩
    · rw [List.getElem_drop] at hat
      rw [List.getElem?_eq_getElem (by omega)]
      exact congrArg some (of_decide_eq_true hat)
    · have hnot := hbefore (g - lo) (by omega)
      rw [List.getElem_drop] at hnot
      have hgl : g < y.length := by omega
      rw [List.getElem?_eq_getElem hgl] at hc
      simp only [show lo + (g - lo) = g by omega] at hnot
      exact hnot (decide_eq_true (Option.some.inj hc))

theorem occurs_of_length_one {y : List UInt8} (hlen : x.length = 1) : Occurs x y f ↔ y[f]? = some (x.getD 0 0) := by
  obtain ⟨c, rfl⟩ := List.length_eq_one_iff.mp hlen
  rw [occurs_iff]
  constructor
  · exact fun h => h 0 Nat.one_pos
  · rintro h i hi
    obtain rfl : i = 0 := by
      rw [List.length_singleton] at hi
      omega
    exact h

/-! ## Calls -/

/-- **No occurrence is hidden**: no byte that is the keyword, but inside of a character, comes before an occurrence. -/
def NoneHidden (s : NormalizedString) (x : List UInt8) : Prop :=
  x.length = 1 → ∀ f g, f < g → Occurs x s.normalized f → s.checks[f]? = some 0 → ¬ Good s x g

/-- The distance that a call goes on by. -/
def shiftOf (cond : SnipCond) : ℕ := if cond.keyword.length = 1 then 1 else cond.shift

/-- **A call** reports the next position, or stops the search. -/
theorem Prepared.call (h : Prepared x cond) (skipSpaces : Bool) (hwide : 11 * x.length < 2 ^ 32)
    (hhidden : NoneHidden s x) :
    (∃ f, grnBmTunedbm s skipSpaces cond = report s skipSpaces cond f (shiftOf cond) ∧
      Next (Good s x) cond.found (some f)) ∨
    grnBmTunedbm s skipSpaces cond = some { cond with stopflag := .stop } ∧ Next (Good s x) cond.found none := by
  have hpos := List.length_pos_iff.mpr h.ne_nil
  rw [grnBmTunedbm, shiftOf, h.keyword]
  by_cases hlen : x.length = 1
  · rw [if_pos hlen, if_pos hlen]
    by_cases hend : cond.found < s.normalized.length
    · rw [if_pos hend]
      rcases memchr_spec s.normalized (x.getD 0 0) cond.found with ⟨f, hfind, hle, hat, hbefore⟩ | ⟨hfind, hnone⟩
      · have hoccurs : Occurs x s.normalized f := (occurs_of_length_one hlen).mpr hat
        obtain ⟨check, hcheck⟩ : ∃ check, s.checks[f]? = some check := by
          have hin := hoccurs.add_le h.ne_nil
          exact ⟨_, List.getElem?_eq_getElem (by rw [s.length_checks]; omega)⟩
        simp only [hfind, hcheck, Option.bind_some]
        by_cases hne : check ≠ 0
        · rw [if_pos hne]
          refine .inl ⟨f, rfl, hle, ⟨hoccurs, ?_⟩, fun g hlo hg hgood => ?_⟩
          · rw [hcheck]
            exact fun heq => hne (Option.some.inj heq)
          · exact hbefore g hlo hg ((occurs_of_length_one hlen).mp hgood.1)
        · rw [if_neg hne]
          rw [not_not] at hne
          subst hne
          refine .inr ⟨rfl, fun g hlo hgood => ?_⟩
          rcases Nat.lt_trichotomy g f with hlt | rfl | hgt
          · exact hbefore g hlo hlt ((occurs_of_length_one hlen).mp hgood.1)
          · exact hgood.2 hcheck
          · exact hhidden hlen f g hgt hoccurs hcheck hgood
      · rw [hfind]
        exact .inr ⟨rfl, fun g hlo hgood => hnone g hlo ((occurs_of_length_one hlen).mp hgood.1)⟩
    · rw [if_neg hend]
      refine .inr ⟨rfl, fun g hlo hgood => ?_⟩
      have hin := hgood.1.add_le h.ne_nil
      omega
  · rw [if_neg hlen, if_neg hlen]
    rcases h.search_spec (s := s) (by omega) hwide with ⟨f, hsearch, hnext⟩ | ⟨p, hsearch, hnext⟩
    · rw [hsearch, Option.bind_some]
      exact .inl ⟨f, rfl, hnext⟩
    · rw [hsearch, Option.bind_some]
      exact .inr ⟨rfl, hnext⟩

/-- Nothing is to be reported within the distance that a call goes on by. -/
theorem Prepared.not_good_of_lt (h : Prepared x cond) {g : ℕ} (hf : Good s x f) (hfg : f < g)
    (hg : g < f + shiftOf cond) : ¬ Good s x g := by
  have hpos := List.length_pos_iff.mpr h.ne_nil
  rw [shiftOf, h.keyword] at hg
  by_cases hlen : x.length = 1
  · rw [if_pos hlen] at hg
    omega
  · rw [if_neg hlen] at hg
    obtain ⟨c, hc⟩ : ∃ c, x[x.length - 1]? = some c := ⟨_, List.getElem?_eq_getElem (by omega)⟩
    have hunder := occurs_iff.mp hf.1 (x.length - 1) (by omega)
    rw [hc, show f + (x.length - 1) = f + x.length - 1 by omega] at hunder
    have hpast := @Skips.not_occurs _ x s.normalized c cond.shift (f + x.length) (g + x.length) (h.shift hlen c hc)
      (Nat.le_add_left _ _) hunder (by omega) (by omega)
    rw [Nat.add_sub_cancel] at hpast
    exact fun hgood => hpast hgood.1

theorem Prepared.shiftOf_pos (h : Prepared x cond) : 0 < shiftOf cond := by
  have hpos := List.length_pos_iff.mpr h.ne_nil
  rw [shiftOf, h.keyword]
  split_ifs with hlen
  · exact Nat.one_pos
  · obtain ⟨c, hc⟩ : ∃ c, x[x.length - 1]? = some c := ⟨_, List.getElem?_eq_getElem (by omega)⟩
    exact (h.shift hlen c hc).pos

/-- All reports are in order, they are the positions that are to be reported from `lo` on, and have their offsets. -/
structure AllReported (s : NormalizedString) (skipSpaces : Bool) (x : List UInt8) (lo : ℕ)
    (reports : List (ℕ × ℕ × ℕ)) : Prop where
  ordered : (reports.map Prod.fst).Pairwise (· < ·)
  mem : ∀ f, f ∈ reports.map Prod.fst ↔ lo ≤ f ∧ Good s x f
  located : ∀ r ∈ reports, Located s skipSpaces x r

/-- **The calls until the search stops** report all positions, if each is held by a character and none is hidden. -/
theorem Prepared.calls_spec {fuel : ℕ} (h : Prepared x cond) (skipSpaces : Bool) (hwide : 11 * x.length < 2 ^ 32)
    (hhidden : NoneHidden s x) (hheads : ∀ f, Good s x f → ∃ g ≤ f, ∃ check ∈ s.checks[g]?, 0 < check)
    (hresumes : Resumes s cond) (hnonstop : cond.stopflag = .nonstop) (hfuel : 0 < fuel)
    (henough : s.normalized.length + 2 ≤ fuel + cond.found) :
    ∃ reports, calls s skipSpaces fuel cond = some reports ∧ AllReported s skipSpaces x cond.found reports := by
  induction fuel generalizing cond with
  | zero => exact absurd hfuel (Nat.lt_irrefl 0)
  | succ fuel ih =>
    have hpos := List.length_pos_iff.mpr h.ne_nil
    have hshift := h.shiftOf_pos
    rw [calls]
    rcases h.call skipSpaces hwide hhidden with ⟨f, hcall, hle, hgood, hbefore⟩ | ⟨hcall, hnone⟩
    · have hin := hgood.1.add_le h.ne_nil
      have hin' : f + x.length ≤ s.checks.length := by rwa [s.length_checks]
      have hcheck : s.checks[f]? = some s.checks[f] := List.getElem?_eq_getElem (by omega)
      have hne : s.checks[f] ≠ 0 := fun heq => hgood.2 (hcheck.trans (congrArg some heq))
      obtain ⟨cond', hreport, hused, hflag, hfound, hresumes', hlocated⟩ := hresumes.report skipSpaces hle
        (by rw [h.keyword]; exact hpos) (by rw [h.keyword]; exact hin') hcheck hne hshift (hheads f hgood)
      have hgo : cond'.stopflag ≠ .stop := by
        rw [hflag, hnonstop]
        exact StopFlag.noConfusion
      obtain ⟨reports, hcalls, hordered, hmem, hall⟩ := ih (h.used hused) hresumes' (hflag.trans hnonstop) (by omega)
        (by omega)
      rw [hcall, hreport, Option.bind_some, if_neg hgo, hcalls, Option.map_some]
      have hposition : cond'.found - (if cond.keyword.length = 1 then 1 else cond.shift) = f := by
        rw [hfound, shiftOf]
        omega
      rw [hposition]
      refine ⟨_, rfl, ?_, fun g => ?_, fun r hr => ?_⟩
      · rw [List.map_cons, List.pairwise_cons]
        refine ⟨fun g hg => ?_, hordered⟩
        have hge := ((hmem g).mp hg).1
        omega
      · rw [List.map_cons, List.mem_cons, hmem, hfound]
        constructor
        · rintro (rfl | ⟨hge, hg⟩)
          · exact ⟨hle, hgood⟩
          · exact ⟨by omega, hg⟩
        · rintro ⟨hlo, hg⟩
          rcases Nat.lt_trichotomy g f with hlt | heq | hgt
          · exact absurd hg (hbefore g hlo hlt)
          · exact .inl heq
          · refine .inr ⟨?_, hg⟩
            by_contra hlt
            exact h.not_good_of_lt hgood hgt (by omega) hg
      · rcases List.mem_cons.mp hr with rfl | hr
        · rw [h.keyword] at hlocated
          exact hlocated
        · exact hall r hr
    · rw [hcall, Option.bind_some, if_pos rfl]
      exact ⟨[], rfl, .nil, fun f => iff_of_false List.not_mem_nil fun hf => hnone f hf.1 hf.2, fun r hr =>
        absurd hr List.not_mem_nil⟩

/-! ## All occurrences -/

/-- **The search finds every occurrence**: from `grn_snip_cond_reinit` on, the calls until the search stops report all
positions that are to be reported, and read nothing outside of the text. -/
def FindsAll (s : NormalizedString) (skipSpaces : Bool) (x : List UInt8) (cond : SnipCond) : Prop :=
  ∃ reports, calls s skipSpaces (s.normalized.length + 2) (grnSnipCondReinit cond) = some reports ∧
    AllReported s skipSpaces x 0 reports

/-- A report goes on behind its position. -/
theorem report_eq_some {skipSpaces : Bool} {shift : ℕ} {cond' : SnipCond}
    (h : report s skipSpaces cond f shift = some cond') : cond'.found = f + shift ∧ Used cond cond' := by
  rw [report, Option.bind_eq_some_iff] at h
  obtain ⟨sum, -, h⟩ := h
  rw [Option.bind_eq_some_iff] at h
  obtain ⟨check, -, h⟩ := h
  rw [Option.bind_eq_some_iff] at h
  obtain ⟨last, -, h⟩ := h
  rw [Option.map_eq_some_iff] at h
  obtain ⟨sum', -, rfl⟩ := h
  exact ⟨rfl, rfl, rfl, rfl⟩

/-- **The search of one byte ends** where the byte is inside of a character. -/
theorem calls_before_hidden {skipSpaces : Bool} {fuel : ℕ} {reports : List (ℕ × ℕ × ℕ)}
    (hlen : cond.keyword.length = 1) (hoccurs : Occurs cond.keyword s.normalized f) (hcheck : s.checks[f]? = some 0)
    (hle : cond.found ≤ f) (hcalls : calls s skipSpaces fuel cond = some reports) : ∀ r ∈ reports, r.1 < f := by
  induction fuel generalizing cond reports with
  | zero => cases hcalls
  | succ fuel ih =>
    have hat := (occurs_of_length_one hlen).mp hoccurs
    have hend : f < s.normalized.length := (List.getElem?_eq_some_iff.mp hat).1
    rw [calls, Option.bind_eq_some_iff] at hcalls
    obtain ⟨cond', hcall, hrest⟩ := hcalls
    by_cases hstop : cond'.stopflag = .stop
    · rw [if_pos hstop] at hrest
      obtain rfl := Option.some.inj hrest
      exact fun r hr => absurd hr List.not_mem_nil
    · rw [if_neg hstop, Option.map_eq_some_iff] at hrest
      obtain ⟨reports, hreports, rfl⟩ := hrest
      rw [grnBmTunedbm, if_pos hlen, if_pos (hle.trans_lt hend)] at hcall
      rcases memchr_spec s.normalized (cond.keyword.getD 0 0) cond.found with ⟨g, hfind, hge, hatg, hbefore⟩ | ⟨-, hnone⟩
      · simp only [hfind, Option.bind_eq_some_iff] at hcall
        obtain ⟨check, hcheckg, hcall⟩ := hcall
        have hgf : g ≤ f := by
          by_contra hlt
          exact hbefore f hle (not_le.mp hlt) hat
        split_ifs at hcall with hne
        · obtain ⟨hfound, hused⟩ := report_eq_some hcall
          have hlt : g < f := by
            refine lt_of_le_of_ne hgf fun heq => hne ?_
            rw [heq, hcheck] at hcheckg
            exact (Option.some.inj hcheckg).symm
          intro r hr
          rcases List.mem_cons.mp hr with rfl | hr
          · simp only [if_pos hlen, hfound, Nat.add_sub_cancel]
            exact hlt
          · exact ih (by rw [hused.keyword]; exact hlen) (by rw [hused.keyword]; exact hoccurs) (by omega) hreports r hr
        · obtain rfl := Option.some.inj hcall
          exact absurd rfl hstop
      · exact absurd hat (hnone f hle)

/-- **The search finds every occurrence exactly if** each is held by a character and, for a keyword of one byte, no
such byte inside of a character comes before one. -/
theorem findsAll_iff (s : NormalizedString) (skipSpaces : Bool) (x : List UInt8) (cond₀ cond : SnipCond)
    (hinit : grnSnipCondInit x = some cond₀) (hused : Used cond₀ cond) (hwide : 11 * x.length < 2 ^ 32) :
    FindsAll s skipSpaces x cond ↔
      (∀ f, Good s x f → ∃ g ≤ f, ∃ check ∈ s.checks[g]?, 0 < check) ∧ NoneHidden s x := by
  have h := (prepared_grnSnipCondInit hinit).used hused
  have hreinit := h.used (used_grnSnipCondReinit cond)
  constructor
  · rintro ⟨reports, hcalls, hordered, hmem, hlocated⟩
    refine ⟨fun f hgood => ?_, fun hlen f g hfg hoccurs hcheck hgood => ?_⟩
    · obtain ⟨r, hr, rfl⟩ := List.mem_map.mp ((hmem f).mpr ⟨Nat.zero_le f, hgood⟩)
      obtain ⟨head, hhead, -⟩ := hlocated r hr
      exact ⟨head, hhead.le, hhead.pos⟩
    · obtain ⟨r, hr, rfl⟩ := List.mem_map.mp ((hmem g).mpr ⟨Nat.zero_le g, hgood⟩)
      have hbefore := calls_before_hidden (by rw [hreinit.keyword]; exact hlen)
        (by rw [hreinit.keyword]; exact hoccurs) hcheck (Nat.zero_le f) hcalls r hr
      omega
  · rintro ⟨hheads, hhidden⟩
    obtain ⟨reports, hcalls, hall⟩ := hreinit.calls_spec skipSpaces hwide hhidden hheads
      (resumes_grnSnipCondReinit s cond) rfl (show 0 < s.normalized.length + 2 by omega) (Nat.le_add_right _ _)
    exact ⟨reports, hcalls, hall⟩

/-- The text of a character of two bytes, of which the second one is a backslash, and a backslash, in Shift_JIS. -/
def backslashes : NormalizedString where
  original := [0x95, 0x5c, 0x5c]
  normalized := [0x95, 0x5c, 0x5c]
  checks := [2, 0, 1]
  encoding := .sjis
  length_checks := rfl
  checks_range := by decide
  length_lt := by decide

/-- Two backslashes are looked for in the text. -/
theorem findsAll_iff_pair : ∃ cond₀, grnSnipCondInit [0x5c, 0x5c] = some cond₀ ∧
    (FindsAll backslashes false [0x5c, 0x5c] cond₀ ↔
      (∀ f, Good backslashes [0x5c, 0x5c] f → ∃ g ≤ f, ∃ check ∈ backslashes.checks[g]?, 0 < check) ∧
        NoneHidden backslashes [0x5c, 0x5c]) :=
  ⟨_, rfl, findsAll_iff backslashes false [0x5c, 0x5c] _ _ rfl ⟨rfl, rfl, rfl⟩ (by decide)⟩

/-- **A backslash behind a character that ends with that byte** is not found. -/
theorem not_findsAll_backslash :
    ∃ cond₀, grnSnipCondInit [0x5c] = some cond₀ ∧ ¬ FindsAll backslashes false [0x5c] cond₀ := by
  refine ⟨_, rfl, ?_⟩
  rintro ⟨reports, hcalls, -, hmem, -⟩
  have hnone : calls backslashes false (backslashes.normalized.length + 2) (grnSnipCondReinit
      { keyword := [0x5c], bmBc := fun _ => 0, shift := 0, found := 0, lastFound := 0, lastOffset := 0, startOffset := 0,
        endOffset := 0, foundAlphaHead := 0, count := 0, stopflag := .nonstop }) = some [] := by decide +kernel
  obtain rfl := Option.some.inj (hcalls.symm.trans hnone)
  exact List.not_mem_nil ((hmem 2).mpr ⟨Nat.zero_le 2, by decide⟩)

end Groonga.Snip
