import Groonga.Lib.EditDistance
import Groonga.Str.Characters
import Mathlib

/-!
# Edit distances from a query

A fuzzy search keeps a table: a row for each character of a key, and a column for each one of
the query. The table is filled row by row. The first rows are those of the characters that the key has
in common with the last key, so they stay as they are. The cells are numbers of 16 bits.
-/

namespace Groonga.Pat

open Lib

/-- `fuzzy_search_data`, with the last key as it was when it was read. -/
structure FuzzySearchData where
  key : List UInt8
  dists : ℕ → ℕ → ℕ
  xLength : ℕ
  transposition : Bool
  maxDistance : ℕ
  maxExpansions : ℕ
  prefixMatchSize : ℕ
  heap : List (ℕ × ℕ)
  lastKey : List UInt8
  canTransition : Bool

/-- `DIST(data, x, y) = value`. -/
def setDist (dists : ℕ → ℕ → ℕ) (x y value : ℕ) : ℕ → ℕ → ℕ := fun i j =>
  if i = x ∧ j = y then value % 2 ^ 16 else dists i j

/-- The value of a cell: `pxPrevious` and `pyPrevious` are the characters before. -/
def calcCell (transposition : Bool) (dists : ℕ → ℕ → ℕ) (x y : ℕ) (cx cy : List UInt8)
    (pxPrevious pyPrevious : Option (List UInt8)) : ℕ :=
  if cx = cy then dists (x - 1) (y - 1)
  else
    let a := dists (x - 1) y + 1
    let b := dists x (y - 1) + 1
    let c := dists (x - 1) (y - 1) + 1
    let d := (if a < b then if a < c then a else c else if b < c then b else c) % 2 ^ 16
    if transposition = true ∧ 1 < x ∧ 1 < y ∧ pyPrevious = some cx ∧ pxPrevious = some cy then
      let t := dists (x - 2) (y - 2) + 1
      if t < d then t else d
    else d

/-- The loop over the characters of the query: it fills the row `y`. -/
def calcRow (transposition : Bool) (y : ℕ) (cy : List UInt8) (pyPrevious : Option (List UInt8)) :
    List (List UInt8) → Option (List UInt8) → ℕ → (ℕ → ℕ → ℕ) → ℕ → ℕ → ℕ
  | [], _, _, dists => dists
  | cx :: px, pxPrevious, x, dists =>
    calcRow transposition y cy pyPrevious px (some cx) (x + 1)
      (setDist dists x y (calcCell transposition dists x y cx cy pxPrevious pyPrevious))

/-- The loop over the characters of the key. It gives the number of the row behind the last one, or none
if the key is too long. -/
def calcRows (xs : List (List UInt8)) (xLength maxDistance : ℕ) (transposition : Bool) :
    List (List UInt8) → Option (List UInt8) → ℕ → (ℕ → ℕ → ℕ) → (ℕ → ℕ → ℕ) × Option ℕ
  | [], _, y, dists => (dists, some y)
  | cy :: py, pyPrevious, y, dists =>
    if xLength + maxDistance < y then (dists, none)
    else
      calcRows xs xLength maxDistance transposition py (some cy) (y + 1)
        (calcRow transposition y cy pyPrevious xs none 1 dists)

/-- The loop that skips the rows of the first `offset` bytes. -/
def skipRows (offset : ℕ) : List (List UInt8) → Option (List UInt8) → ℕ → ℕ →
    List (List UInt8) × Option (List UInt8) × ℕ
  | [], pyPrevious, y, _ => ([], pyPrevious, y)
  | cy :: py, pyPrevious, y, skipped =>
    if offset ≤ skipped then (cy :: py, pyPrevious, y)
    else skipRows offset py (some cy) (y + 1) (skipped + cy.length)

/-- `grn_pat_fuzzy_search_calc_edit_distance`. -/
def calcEditDistance (data : FuzzySearchData) (sy : List UInt8) (offset : ℕ) : FuzzySearchData × ℕ :=
  let (py, pyPrevious, y) := skipRows offset (characters sy) none 1 0
  match calcRows (characters data.key) data.xLength data.maxDistance data.transposition py pyPrevious y data.dists with
  | (dists, none) => ({ data with dists := dists, canTransition := false }, data.maxDistance + 1)
  | (dists, some y) =>
    let canTransition :=
      if 0 < data.xLength then
        (List.range' 1 data.xLength).any fun x => dists x (y - 1) ≤ data.maxDistance
      else data.canTransition
    ({ data with dists := dists, canTransition := canTransition }, dists data.xLength (y - 1))

/-- The first row and the first column of the table, in memory that `GRN_MALLOC` gave. -/
def initDists (memory : ℕ → ℕ → ℕ) (xLength maxDistance : ℕ) : ℕ → ℕ → ℕ :=
  let dists := (List.range (xLength + 1)).foldl (fun dists x => setDist dists x 0 x) memory
  (List.range (xLength + maxDistance + 1)).foldl (fun dists y => setDist dists 0 y y) dists

/-- The data of a search before it reads a key. -/
def initData (memory : ℕ → ℕ → ℕ) (key : List UInt8) (transposition : Bool)
    (maxDistance maxExpansions prefixMatchSize : ℕ) : FuzzySearchData where
  key := key
  dists := initDists memory (characters key).length maxDistance
  xLength := (characters key).length
  transposition := transposition
  maxDistance := maxDistance
  maxExpansions := maxExpansions
  prefixMatchSize := prefixMatchSize
  heap := []
  lastKey := []
  canTransition := true

/-! ## Cells -/

variable {transposition : Bool} {dists : ℕ → ℕ → ℕ} {X xs ys px : List (List UInt8)} {cx cy : List UInt8}

/-- All neighbours may be swapped, or none. -/
def transposes {α : Type*} (transposition : Bool) (_ _ : α) : Prop := transposition = true

/-- The least of three numbers, as the cells compute it. -/
theorem least_eq (a b c : ℕ) :
    (if a + 1 < b + 1 then if a + 1 < c + 1 then a + 1 else c + 1 else if b + 1 < c + 1 then b + 1 else c + 1) =
      min (min a b) c + 1 := by
  split_ifs <;> omega

/-- **A cell is the distance** of the characters up to it, if the cells around are. -/
theorem calcCell_eq (hsmall : xs.length + ys.length + 2 < 2 ^ 16)
    (hleft : dists xs.length (ys.length + 1) = distance (transposes transposition) xs (cy :: ys))
    (hup : dists (xs.length + 1) ys.length = distance (transposes transposition) (cx :: xs) ys)
    (hdiagonal : dists xs.length ys.length = distance (transposes transposition) xs ys)
    (hswap : ∀ xs' ys', xs = cy :: xs' → ys = cx :: ys' →
      dists xs'.length ys'.length = distance (transposes transposition) xs' ys') :
    calcCell transposition dists (xs.length + 1) (ys.length + 1) cx cy xs.head? ys.head? =
      distance (transposes transposition) (cx :: xs) (cy :: ys) := by
  rw [calcCell]
  by_cases heq : cx = cy
  · subst heq
    rw [if_pos rfl, distance_cons_self]
    exact hdiagonal
  · have hbound := distance_le_add (transposes transposition) xs ys
    have hmod : unswapped (transposes transposition) cx cy xs ys % 2 ^ 16 =
        unswapped (transposes transposition) cx cy xs ys := by
      rw [unswapped]
      exact Nat.mod_eq_of_lt (by omega)
    simp only [if_neg heq, Nat.add_sub_cancel, hleft, hup, hdiagonal, least_eq]
    rw [← unswapped, hmod]
    split_ifs with hif hlt
    · obtain ⟨htrue, -, -, hy, hx⟩ := hif
      obtain ⟨ys', rfl⟩ := List.head?_eq_some_iff.mp hy
      obtain ⟨xs', rfl⟩ := List.head?_eq_some_iff.mp hx
      have hcell := hswap xs' ys' rfl rfl
      have hindex : dists ((cy :: xs').length + 1 - 2) ((cx :: ys').length + 1 - 2) + 1 =
          distance (transposes transposition) xs' ys' + 1 := congrArg (· + 1) hcell
      rw [hindex] at hlt ⊢
      rw [distance_cons_cons_swap heq htrue]
      exact (Nat.min_eq_right hlt.le).symm
    · obtain ⟨htrue, -, -, hy, hx⟩ := hif
      obtain ⟨ys', rfl⟩ := List.head?_eq_some_iff.mp hy
      obtain ⟨xs', rfl⟩ := List.head?_eq_some_iff.mp hx
      have hcell := hswap xs' ys' rfl rfl
      have hindex : dists ((cy :: xs').length + 1 - 2) ((cx :: ys').length + 1 - 2) + 1 =
          distance (transposes transposition) xs' ys' + 1 := congrArg (· + 1) hcell
      rw [hindex] at hlt
      rw [distance_cons_cons_swap heq htrue]
      exact (Nat.min_eq_left (not_lt.mp hlt)).symm
    · refine (distance_cons_cons heq fun xs' ys' hx hy htrue => hif ⟨htrue, ?_, ?_, ?_, ?_⟩).symm
      · rw [hx, List.length_cons]
        omega
      · rw [hy, List.length_cons]
        omega
      · rw [hy, List.head?_cons]
      · rw [hx, List.head?_cons]

/-! ## Rows -/

variable {maxDistance : ℕ}

/-- The loop over the query writes one cell after the other. -/
theorem calcRow_eq_fillRow (y : ℕ) (cy : List UInt8) (pyPrevious : Option (List UInt8)) :
    calcRow transposition y cy pyPrevious px xs.head? (xs.length + 1) dists =
      fillRow (fun xs dists => calcCell transposition dists xs.length y (xs.headD []) cy xs.tail.head? pyPrevious %
        2 ^ 16) y xs px dists := by
  induction px generalizing xs dists with
  | nil => rfl
  | cons cx px ih =>
    rw [calcRow, fillRow]
    exact @ih _ (cx :: xs)

/-- The cells of a row are right. -/
theorem cellRight_calcCell (hsmall : X.length + ys.length + 2 < 2 ^ 16) :
    CellRight (transposes transposition) X cy ys (fun xs dists =>
      calcCell transposition dists xs.length (ys.length + 1) (xs.headD []) cy xs.tail.head? ys.head? % 2 ^ 16) := by
  intro cx xs px dists hX hleft hup hup₂
  have hlength : xs.length + 1 ≤ X.length := by
    rw [hX, List.length_append, List.length_reverse, List.length_cons]
    omega
  have hX' : X = (cx :: xs).reverse ++ px := by
    rw [hX, List.reverse_cons, List.append_assoc]
    rfl
  have hcell := calcCell_eq (by omega) hleft (hup.at_part px hX') (hup.at_part _ hX) fun xs' ys' hx hy =>
    (hup₂ cx ys' hy).at_part (cy :: cx :: px) (by
      rw [hX, hx, List.reverse_cons, List.append_assoc]
      rfl)
  have hbound := distance_le_add (transposes transposition) (cx :: xs) (cy :: ys)
  rw [List.length_cons, List.length_cons] at hbound
  show calcCell transposition dists (xs.length + 1) (ys.length + 1) cx cy xs.head? ys.head? % 2 ^ 16 = _
  rw [hcell, Nat.mod_eq_of_lt (by omega)]

/-- **The loop over the key fills its rows**, until the key is too long. -/
theorem calcRows_spec (py : List (List UInt8)) (h : Rows (transposes transposition) X (X.length + maxDistance) dists ys)
    (hle : ys.length ≤ X.length + maxDistance) (hsmall : X.length + (X.length + maxDistance) + 2 < 2 ^ 16) :
    ∃ dists' ys', Rows (transposes transposition) X (X.length + maxDistance) dists' ys' ∧ ys' <:+ py.reverse ++ ys ∧
      ys'.length = min (ys.length + py.length) (X.length + maxDistance) ∧
      calcRows X X.length maxDistance transposition py ys.head? (ys.length + 1) dists =
        (dists', if ys.length + py.length ≤ X.length + maxDistance then some (ys.length + py.length + 1) else none) := by
  induction py generalizing ys dists with
  | nil =>
    refine ⟨dists, ys, h, List.suffix_rfl, (Nat.min_eq_left hle).symm, ?_⟩
    rw [calcRows]
    exact congrArg (Prod.mk dists) (if_pos hle).symm
  | cons cy py ih =>
    rw [calcRows]
    by_cases hcut : X.length + maxDistance < ys.length + 1
    · refine ⟨dists, ys, h, List.suffix_append _ _, ?_, ?_⟩
      · rw [List.length_cons]
        omega
      · rw [if_pos hcut, if_neg]
        rw [List.length_cons]
        omega
    · have hrow : calcRow transposition (ys.length + 1) cy ys.head? X none 1 dists =
          fillRow _ (ys.length + 1) [] X dists := @calcRow_eq_fillRow _ _ [] _ _ _ _
      rw [if_neg hcut, hrow]
      obtain ⟨dists', ys', hrows, hsuffix, hlength, hcalc⟩ :=
        ih (h.cons (not_lt.mp hcut) (cellRight_calcCell (by omega))) (not_lt.mp hcut)
      have hsum : (cy :: ys).length + py.length = ys.length + (cy :: py).length := by
        rw [List.length_cons, List.length_cons]
        omega
      rw [hsum] at hlength hcalc
      refine ⟨dists', ys', hrows, ?_, hlength, hcalc⟩
      rw [List.reverse_cons, List.append_assoc]
      exact hsuffix

/-! ## Tables -/

/-- **A new table** has the row of no characters. -/
theorem rows_initDists (memory : ℕ → ℕ → ℕ) (X : List (List UInt8))
    (hsmall : X.length + (X.length + maxDistance) + 2 < 2 ^ 16) :
    Rows (transposes transposition) X (X.length + maxDistance) (initDists memory X.length maxDistance) [] := by
  have hcell : ∀ i j, initDists memory X.length maxDistance i j =
      if i = 0 ∧ j < X.length + maxDistance + 1 then j % 2 ^ 16
      else if i < X.length + 1 ∧ j = 0 then i % 2 ^ 16 else memory i j := by
    intro i j
    have hrow := foldl_writeCell_row memory (· % 2 ^ 16) (X.length + 1) i j
    have hcolumn := foldl_writeCell_column ((List.range (X.length + 1)).foldl
      (fun dists x => writeCell dists x 0 (x % 2 ^ 16)) memory) (· % 2 ^ 16) (X.length + maxDistance + 1) i j
    rw [hrow] at hcolumn
    exact hcolumn
  refine rows_nil (fun j hj => ?_) fun i hi => ?_
  · rw [hcell, if_pos ⟨rfl, Nat.lt_succ_of_le hj⟩, Nat.mod_eq_of_lt (by omega)]
  · rw [hcell]
    split_ifs with hzero hrow
    · exact hzero.1.symm
    · exact Nat.mod_eq_of_lt (by omega)
    · exact absurd ⟨Nat.lt_succ_of_le hi, rfl⟩ hrow

/-- The loop skips whole characters. -/
theorem skipRows_append {offset : ℕ} (skipped : ℕ) (hoffset : skipped + xs.flatten.length = offset) (hne : ∀ c ∈ xs, c ≠ [])
    (ys py : List (List UInt8)) : skipRows offset (xs ++ py) ys.head? (ys.length + 1) skipped =
      (py, (xs.reverse ++ ys).head?, (xs.reverse ++ ys).length + 1) := by
  induction xs generalizing ys skipped with
  | nil =>
    have hle : offset ≤ skipped := Nat.le_of_eq hoffset.symm
    cases py with
    | nil => rfl
    | cons cy py => exact if_pos hle
  | cons cx xs ih =>
    have hpos := List.length_pos_iff.mpr (hne cx List.mem_cons_self)
    rw [List.flatten_cons, List.length_append] at hoffset
    have hlt : ¬ offset ≤ skipped := by omega
    rw [List.cons_append, skipRows, if_neg hlt]
    have hnext := ih (skipped + cx.length) (by omega) (fun c hc => hne c (List.mem_cons_of_mem _ hc))
      (cx :: ys)
    rw [List.reverse_cons, List.append_assoc]
    exact hnext

theorem transposes_symm {α : Type*} (transposition : Bool) (a b : α) (h : transposes transposition a b) :
    transposes transposition b a := h

/-- **Behind a row without a near cell** no key is near. -/
theorem lt_distance_of_row {Y : List (List UInt8)} (hY : Y ≠ [])
    (hX : X ≠ []) (hrow : ∀ x, 1 ≤ x → x ≤ X.length →
      maxDistance < distance (transposes transposition) (X.take x).reverse Y.reverse) (Z : List (List UInt8)) :
    maxDistance < distance (transposes transposition) X (Y ++ Z) := by
  have hall : ∀ xs₀, xs₀ <:+ X.reverse → maxDistance < distance (transposes transposition) xs₀ Y.reverse := by
    intro xs₀ hsuffix
    have hprefix : xs₀.reverse <+: X := by
      rw [← List.reverse_suffix, List.reverse_reverse]
      exact hsuffix
    have htake : xs₀ = (X.take xs₀.length).reverse := by
      rw [← List.length_reverse, ← List.prefix_iff_eq_take.mp hprefix, List.reverse_reverse]
    by_cases hzero : xs₀ = []
    · -- the column before the first character of the query is not nearer than the one behind it
      subst hzero
      obtain ⟨a, rest, rfl⟩ := List.exists_cons_of_ne_nil hX
      obtain ⟨b, ys, hys⟩ := List.exists_cons_of_ne_nil (List.reverse_ne_nil_iff.mpr hY)
      have hone := hrow 1 (Nat.le_refl 1) (Nat.succ_le_succ (Nat.zero_le _))
      have hle : distance (transposes transposition) [a] Y.reverse ≤ Y.reverse.length := by
        rw [hys]
        exact (Alignment.replace a b (.inserts _ ys)).distance_le
      rw [distance_nil_left]
      exact hone.trans_le hle
    · rw [htake]
      refine hrow _ (List.length_pos_iff.mpr hzero) ?_
      rw [← List.length_reverse]
      exact hprefix.length_le
  have hfar := lt_distance_append hall Z.reverse X.reverse List.suffix_rfl
  rw [← List.reverse_append, distance_reverse (transposes_symm transposition)] at hfar
  exact hfar

/-- What the calculation for a key with the characters `Y` gives. -/
structure Calculated (data : FuzzySearchData) (Y : List (List UInt8)) (r : FuzzySearchData × ℕ) : Prop where
  same : r.1 = { data with dists := r.1.dists, canTransition := r.1.canTransition }
  rows : ∃ ys, ys <:+ Y.reverse ∧
    ys.length = min Y.length ((characters data.key).length + data.maxDistance) ∧
    Rows (transposes data.transposition) (characters data.key) ((characters data.key).length + data.maxDistance) r.1.dists ys
  near : Y.length ≤ (characters data.key).length + data.maxDistance →
    r.2 = distance (transposes data.transposition) (characters data.key) Y
  far : (characters data.key).length + data.maxDistance < Y.length → r.2 = data.maxDistance + 1
  stops : r.1.canTransition = false → Y ≠ [] → ∀ Z,
    data.maxDistance < distance (transposes data.transposition) (characters data.key) (Y ++ Z)

/-- **The calculation of a distance**, when the rows of the first characters of the key are there. -/
theorem calcEditDistance_spec (data : FuzzySearchData) (sy : List UInt8) (A B : List (List UInt8))
    (hlength : data.xLength = (characters data.key).length) (hcan : data.canTransition = true)
    (hsmall : (characters data.key).length + ((characters data.key).length + data.maxDistance) + 2 < 2 ^ 16)
    (hsy : characters sy = A ++ B)
    (hrows : Rows (transposes data.transposition) (characters data.key) ((characters data.key).length + data.maxDistance) data.dists
      A.reverse) (hA : A.length ≤ (characters data.key).length + data.maxDistance) :
    Calculated data (A ++ B) (calcEditDistance data sy A.flatten.length) := by
  obtain ⟨X, hX⟩ : ∃ X, X = characters data.key := ⟨_, rfl⟩
  have hchars : ∀ c ∈ A, c ≠ [] := fun c hc => @ne_nil_of_mem_characters sy c (by
    rw [hsy]
    exact List.mem_append_left B hc)
  have hskip := skipRows_append 0 (Nat.zero_add _) hchars [] B
  have hA' : A.reverse.length ≤ X.length + data.maxDistance := by
    rw [List.length_reverse, hX]
    exact hA
  rw [← hX] at hlength hsmall hrows
  obtain ⟨dists', ys', hrows', hsuffix, hlen, hcalc⟩ := calcRows_spec B hrows hA' hsmall
  have hsum : A.reverse.length + B.length = (A ++ B).length := by
    rw [List.length_reverse, List.length_append]
  rw [← List.reverse_append] at hsuffix
  rw [hsum] at hlen hcalc
  have hloop : calcRows X data.xLength data.maxDistance data.transposition B A.reverse.head? (A.reverse.length + 1)
      data.dists = (dists', if (A ++ B).length ≤ X.length + data.maxDistance then some ((A ++ B).length + 1) else none) := by
    rw [hlength]
    exact hcalc
  rw [List.head?_nil, List.length_nil, List.append_nil] at hskip
  rw [calcEditDistance, hsy, hskip, ← hX]
  simp only
  rw [hloop]
  by_cases hle : (A ++ B).length ≤ X.length + data.maxDistance
  · obtain rfl : ys' = (A ++ B).reverse := hsuffix.eq_of_length (by
      rw [hlen, Nat.min_eq_left hle, List.length_reverse])
    have hrow := hrows'.rows _ List.suffix_rfl
    rw [List.length_reverse] at hrow
    rw [if_pos hle]
    refine ⟨rfl, ⟨_, hsuffix, ?_, ?_⟩, fun _ => ?_, fun h => ?_, fun hstop hne Z => ?_⟩
    · rw [← hX]
      exact hlen
    · rw [← hX]
      exact hrows'
    · show dists' data.xLength (A ++ B).length = _
      rw [hlength, hrow _ (Nat.le_refl _), List.take_length, distance_reverse (transposes_symm _), ← hX]
    · rw [← hX] at h
      exact absurd hle (Nat.not_le.mpr h)
    · have hstop' : (if 0 < data.xLength then (List.range' 1 data.xLength).any fun x =>
          decide (dists' x (A ++ B).length ≤ data.maxDistance) else data.canTransition) = false := hstop
      rw [hlength] at hstop'
      rw [← hX]
      split_ifs at hstop' with hpos
      · refine lt_distance_of_row hne (List.ne_nil_of_length_pos hpos) (fun x hone hx => ?_) Z
        have hno := List.any_eq_false.mp hstop' x (List.mem_range'_1.mpr ⟨hone, by omega⟩)
        rw [hrow x hx, decide_eq_true_eq] at hno
        exact not_le.mp hno
      · rw [hcan] at hstop'
        cases hstop'
  · rw [if_neg hle]
    refine ⟨rfl, ⟨ys', hsuffix, ?_, ?_⟩, fun h => ?_, fun _ => rfl, fun _ _ Z => ?_⟩
    · rw [← hX]
      exact hlen
    · rw [← hX]
      exact hrows'
    · rw [← hX] at h
      exact absurd h hle
    · have hfar := length_le_distance (transposes data.transposition) X (A ++ B ++ Z)
      rw [List.length_append] at hfar
      rw [← hX]
      omega

/-- The calculation for a key whose rows do not fit, behind more rows than there are. -/
theorem calcEditDistance_far (data : FuzzySearchData) (sy : List UInt8) (A B : List (List UInt8))
    (hlength : data.xLength = (characters data.key).length) (hsy : characters sy = A ++ B) (hB : B ≠ [])
    (hA : (characters data.key).length + data.maxDistance < A.length) :
    calcEditDistance data sy A.flatten.length = ({ data with canTransition := false }, data.maxDistance + 1) := by
  have hchars : ∀ c ∈ A, c ≠ [] := fun c hc => @ne_nil_of_mem_characters sy c (by
    rw [hsy]
    exact List.mem_append_left B hc)
  have hskip := skipRows_append 0 (Nat.zero_add _) hchars [] B
  rw [List.head?_nil, List.length_nil, List.append_nil, List.length_reverse] at hskip
  obtain ⟨cy, py, rfl⟩ := List.exists_cons_of_ne_nil hB
  rw [calcEditDistance, hsy, hskip]
  simp only
  rw [calcRows, if_pos (by omega)]

/-- **The distance of a key** in a new table. -/
theorem calcEditDistance_initData (memory : ℕ → ℕ → ℕ) (key sy : List UInt8) (transposition : Bool)
    (maxDistance maxExpansions prefixMatchSize : ℕ)
    (hsmall : (characters key).length + ((characters key).length + maxDistance) + 2 < 2 ^ 16) :
    Calculated (initData memory key transposition maxDistance maxExpansions prefixMatchSize) (characters sy)
      (calcEditDistance (initData memory key transposition maxDistance maxExpansions prefixMatchSize) sy 0) :=
  calcEditDistance_spec (initData memory key transposition maxDistance maxExpansions prefixMatchSize) sy []
    (characters sy) rfl rfl hsmall rfl (rows_initDists memory (characters key) hsmall) (Nat.zero_le _)

end Groonga.Pat
