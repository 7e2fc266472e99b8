import Groonga.Pat.EditDistance
import Mathlib

/-!
# The edit distance of two texts

`calc_edit_distance` of the sequential search fills the same table as the search of a patricia trie, column
by column. It goes back by the length of the current character to find the one before, so it swaps only
neighbours of one length; what it reads there is not always a character, and may be before the text.
The patricia trie keeps the places of the characters, and swaps all neighbours.

Memory is a function from addresses to bytes: nothing is assumed of the bytes before a text.
-/

namespace Groonga.Proc

open Lib

/-- The bytes at an address. -/
def bytesFrom (mem : ℤ → UInt8) (p : ℤ) (n : ℕ) : List UInt8 := (List.range n).map fun i : ℕ => mem (p + i)

/-- `grn_charlen(ctx, p, e)`. -/
def charlen (mem : ℤ → UInt8) (p e : ℤ) : ℕ := grnStrCharlenUtf8 (bytesFrom mem p (e - p).toNat)

/-- The loop that counts the characters from `p` to `e`. -/
def countCharacters (mem : ℤ → UInt8) (e : ℤ) : ℕ → ℤ → ℕ
  | 0, _ => 0
  | fuel + 1, p =>
    if p < e ∧ charlen mem p e ≠ 0 then countCharacters mem e fuel (p + charlen mem p e) + 1 else 0

/-- The value of `DIST(x, y)`. -/
def calcCell (mem : ℤ → UInt8) (transposition : Bool) (dists : ℕ → ℕ → ℕ) (x y : ℕ) (px py : ℤ) (cx cy : ℕ) : ℕ :=
  if cx = cy ∧ bytesFrom mem px cx = bytesFrom mem py cx then dists (x - 1) (y - 1)
  else
    let a := dists (x - 1) y + 1
    let b := dists x (y - 1) + 1
    let c := dists (x - 1) (y - 1) + 1
    let d := if a < b then if a < c then a else c else if b < c then b else c
    if transposition = true ∧ 1 < x ∧ 1 < y ∧ cx = cy ∧ bytesFrom mem px cx = bytesFrom mem (py - cy) cx ∧
        bytesFrom mem (px - cx) cx = bytesFrom mem py cx then
      let t := dists (x - 2) (y - 2) + 1
      if d < t then d else t
    else d

/-- The loop over `py`, which runs `n` times. -/
def calcColumn (mem : ℤ → UInt8) (transposition : Bool) (x : ℕ) (px : ℤ) (cx : ℕ) (ey : ℤ) :
    ℕ → ℕ → ℤ → (ℕ → ℕ → ℕ) → ℕ → ℕ → ℕ
  | 0, _, _, dists => dists
  | n + 1, y, py, dists =>
    let cy := charlen mem py ey
    calcColumn mem transposition x px cx ey n (y + 1) (py + cy)
      (writeCell dists x y (calcCell mem transposition dists x y px py cx cy % 2 ^ 32))

/-- The loop over `px`, which runs `n` times. -/
def calcColumns (mem : ℤ → UInt8) (transposition : Bool) (ex sy ey : ℤ) (ly : ℕ) :
    ℕ → ℕ → ℤ → (ℕ → ℕ → ℕ) → ℕ → ℕ → ℕ
  | 0, _, _, dists => dists
  | n + 1, x, px, dists =>
    let cx := charlen mem px ex
    calcColumns mem transposition ex sy ey ly n (x + 1) (px + cx)
      (calcColumn mem transposition x px cx ey ly 1 sy dists)

/-- `calc_edit_distance`. The cells are numbers of 32 bits, in memory that `GRN_PLUGIN_MALLOC` gave. -/
def calcEditDistance (mem : ℤ → UInt8) (dists : ℕ → ℕ → ℕ) (sx ex sy ey : ℤ) (transposition : Bool) : ℕ :=
  let lx := countCharacters mem ex (ex - sx).toNat sx
  let ly := countCharacters mem ey (ey - sy).toNat sy
  let dists := (List.range (lx + 1)).foldl (fun dists x => writeCell dists x 0 x) dists
  let dists := (List.range (ly + 1)).foldl (fun dists y => writeCell dists 0 y y) dists
  calcColumns mem transposition ex sy ey ly lx 1 sx dists lx ly

/-! ## Texts in memory -/

variable {mem : ℤ → UInt8} {p e : ℤ} {n m : ℕ} {text : List Char}

theorem length_bytesFrom (mem : ℤ → UInt8) (p : ℤ) (n : ℕ) : (bytesFrom mem p n).length = n :=
  (List.length_map _).trans List.length_range

theorem bytesFrom_add (mem : ℤ → UInt8) (p : ℤ) (n m : ℕ) :
    bytesFrom mem p (n + m) = bytesFrom mem p n ++ bytesFrom mem (p + n) m := by
  rw [bytesFrom, List.range_add, List.map_append, List.map_map]
  refine congrArg (bytesFrom mem p n ++ ·) (List.map_congr_left fun i _ => ?_)
  show mem (p + (n + i : ℕ)) = mem (p + n + i)
  rw [Nat.cast_add, add_assoc]

/-- A text is at an address. -/
def TextAt (mem : ℤ → UInt8) (p : ℤ) (text : List Char) : Prop := bytesFrom mem p (utf8 text).length = utf8 text

/-- The address behind a text. -/
def behind (p : ℤ) (text : List Char) : ℤ := p + (utf8 text).length

@[simp]
theorem behind_nil (p : ℤ) : behind p [] = p := add_zero p

theorem behind_append (p : ℤ) (text text' : List Char) : behind p (text ++ text') = behind (behind p text) text' := by
  rw [behind, utf8_append, List.length_append, Nat.cast_add, ← add_assoc]
  rfl

/-- A text is one part behind the other. -/
theorem textAt_append {text' : List Char} :
    TextAt mem p (text ++ text') ↔ TextAt mem p text ∧ TextAt mem (behind p text) text' := by
  rw [TextAt, utf8_append, List.length_append, bytesFrom_add]
  constructor
  · intro h
    exact List.append_inj h (length_bytesFrom mem p _)
  · rintro ⟨h, h'⟩
    exact congrArg₂ (· ++ ·) h h'

/-- The bytes up to the end of a text. -/
theorem TextAt.bytesFrom_behind (h : TextAt mem p text) : bytesFrom mem p (behind p text - p).toNat = utf8 text := by
  rw [behind, add_sub_cancel_left, Int.toNat_natCast]
  exact h

/-- The loop counts the characters. -/
theorem countCharacters_eq (mem : ℤ → UInt8) {e : ℤ} {fuel : ℕ} (hfuel : (e - p).toNat ≤ fuel) :
    countCharacters mem e fuel p = (characters (bytesFrom mem p (e - p).toNat)).length := by
  induction fuel generalizing p with
  | zero =>
    rw [Nat.le_zero.mp hfuel]
    rfl
  | succ fuel ih =>
    rw [countCharacters, charlen]
    by_cases hzero : grnStrCharlenUtf8 (bytesFrom mem p (e - p).toNat) = 0
    · rw [if_neg fun h => h.2 hzero, characters_of_charlen_zero hzero]
      rfl
    · have hle := grnStrCharlenUtf8_le (bytesFrom mem p (e - p).toNat)
      rw [length_bytesFrom] at hle
      have hrest : (e - p).toNat = grnStrCharlenUtf8 (bytesFrom mem p (e - p).toNat) +
          (e - (p + grnStrCharlenUtf8 (bytesFrom mem p (e - p).toNat))).toNat := by omega
      have hdrop : (bytesFrom mem p (e - p).toNat).drop (grnStrCharlenUtf8 (bytesFrom mem p (e - p).toNat)) =
          bytesFrom mem (p + grnStrCharlenUtf8 (bytesFrom mem p (e - p).toNat))
            (e - (p + grnStrCharlenUtf8 (bytesFrom mem p (e - p).toNat))).toNat := by
        conv_lhs =>
          arg 2
          rw [hrest, bytesFrom_add]
        exact List.drop_left' (length_bytesFrom mem p _)
      rw [if_pos ⟨by omega, hzero⟩, characters_of_charlen hzero, List.length_cons, hdrop, ih (by omega)]

/-- The characters of a text in memory. -/
theorem TextAt.countCharacters_eq (h : TextAt mem p text) :
    countCharacters mem (behind p text) (behind p text - p).toNat p = (beforeNul text).length := by
  rw [Proc.countCharacters_eq mem (Nat.le_refl _), h.bytesFrom_behind, characters_utf8, List.length_map]

/-- **The next character** of a text. -/
theorem TextAt.charlen_eq {before after : List Char} {c : Char} (h : TextAt mem p (before ++ c :: after))
    (hc : c ≠ '\x00') :
    charlen mem (behind p before) (behind p (before ++ c :: after)) = (String.utf8EncodeChar c).length := by
  rw [charlen, behind_append, (textAt_append.mp h).2.bytesFrom_behind, utf8_cons]
  exact charlen_utf8EncodeChar hc _

theorem TextAt.bytesFrom_char {before after : List Char} {c : Char} (h : TextAt mem p (before ++ c :: after)) :
    bytesFrom mem (behind p before) (String.utf8EncodeChar c).length = String.utf8EncodeChar c := by
  have hone := (textAt_append.mp h).2
  rw [← List.singleton_append, textAt_append] at hone
  have hself := hone.1
  rw [TextAt, utf8_cons] at hself
  have hnil : utf8 [] = [] := rfl
  rw [hnil, List.append_nil] at hself
  exact hself

/-! ## Going back -/

/-- Only the first byte of a character does not continue it. -/
theorem isContinuation_at {c : Char} (h : bytesFrom mem p (String.utf8EncodeChar c).length = String.utf8EncodeChar c)
    {i : ℕ} (hi : i < (String.utf8EncodeChar c).length) : isContinuation (mem (p + i)) = true ↔ 0 < i := by
  obtain ⟨first, others, heq, hchar⟩ := isCharacter_utf8EncodeChar c
  rw [heq] at h hi
  have hbyte : mem (p + i) = (first :: others)[i] := by
    have hget := congrArg (fun bytes => bytes[i]?) h
    simp only [bytesFrom, List.getElem?_map, List.getElem?_range hi, Option.map_some, List.getElem?_eq_getElem hi,
      Option.some.injEq] at hget
    exact hget
  rw [hbyte]
  cases i with
  | zero =>
    rw [List.getElem_cons_zero, hchar.not_continuation]
    exact ⟨fun h => absurd h Bool.false_ne_true, fun h => absurd h (Nat.lt_irrefl 0)⟩
  | succ i =>
    rw [List.getElem_cons_succ]
    exact ⟨fun _ => Nat.succ_pos i, fun _ => hchar.continuation _ (List.getElem_mem _)⟩

/-- **Going back by the length of a character** finds this character only if it is the one before. -/
theorem bytesFrom_back_iff {c d : Char} (hd : bytesFrom mem (p - (String.utf8EncodeChar d).length)
    (String.utf8EncodeChar d).length = String.utf8EncodeChar d) :
    bytesFrom mem (p - (String.utf8EncodeChar c).length) (String.utf8EncodeChar c).length = String.utf8EncodeChar c ↔
      c = d := by
  refine ⟨fun hc => ?_, fun h => h ▸ hd⟩
  have hcpos := List.length_pos_iff.mpr (String.utf8EncodeChar_ne_nil (c := c))
  have hdpos := List.length_pos_iff.mpr (String.utf8EncodeChar_ne_nil (c := d))
  obtain ⟨k, hk⟩ : ∃ k, k = (String.utf8EncodeChar c).length := ⟨_, rfl⟩
  obtain ⟨w, hw⟩ : ∃ w, w = (String.utf8EncodeChar d).length := ⟨_, rfl⟩
  rcases Nat.lt_trichotomy k w with hlt | heq | hlt
  · -- the first byte is inside the character before
    have hfirst := isContinuation_at hc hcpos
    have hinside := isContinuation_at hd (i := w - k) (by omega)
    have haddress : p - (w : ℕ) + ((w - k : ℕ) : ℤ) = p - (k : ℕ) + ((0 : ℕ) : ℤ) := by omega
    rw [← hw, haddress, hk, hfirst] at hinside
    omega
  · rw [← hk, heq] at hc
    rw [← hw] at hd
    exact utf8EncodeChar_injective (hc.symm.trans hd)
  · -- the first byte of the character before is inside
    have hfirst := isContinuation_at hd hdpos
    have hinside := isContinuation_at hc (i := k - w) (by omega)
    have haddress : p - (k : ℕ) + ((k - w : ℕ) : ℤ) = p - (w : ℕ) + ((0 : ℕ) : ℤ) := by omega
    rw [← hk, haddress, hw, hfirst] at hinside
    omega

/-! ## Columns -/

/-- Neighbours of one length may be swapped, or none. -/
def transposesWidth (transposition : Bool) (c d : Char) : Prop :=
  transposition = true ∧ (String.utf8EncodeChar c).length = (String.utf8EncodeChar d).length

variable {transposition : Bool} {sx sy : ℤ} {X Y xs ys restX restY : List Char} {c d : Char} {dists : ℕ → ℕ → ℕ}

/-- The characters from `xs` and `ys` on are in memory: the texts read so far, the last character first,
and what follows. -/
structure At (mem : ℤ → UInt8) (sx sy : ℤ) (xs ys : List Char) (c d : Char) : Prop where
  x : ∃ after, TextAt mem sx (xs.reverse ++ c :: after)
  y : ∃ after, TextAt mem sy (ys.reverse ++ d :: after)

/-- The character before. -/
theorem bytesFrom_previous {after : List Char} (h : TextAt mem p (xs.reverse ++ c :: after)) {c' : Char} {xs' : List Char}
    (hxs : xs = c' :: xs') : bytesFrom mem (behind p xs.reverse - (String.utf8EncodeChar c').length)
      (String.utf8EncodeChar c').length = String.utf8EncodeChar c' := by
  subst hxs
  rw [List.reverse_cons, List.append_assoc] at h
  have hbehind : behind p (c' :: xs').reverse - (String.utf8EncodeChar c').length = behind p xs'.reverse := by
    rw [List.reverse_cons, behind_append, behind, utf8_cons]
    show behind p xs'.reverse + ((String.utf8EncodeChar c' ++ utf8 []).length : ℤ) - _ = _
    rw [show utf8 [] = [] from rfl, List.append_nil, add_sub_cancel_right]
  rw [hbehind]
  exact h.bytesFrom_char

/-- **The cells are equal** exactly when the characters are. -/
theorem At.same_iff (h : At mem sx sy xs ys c d) : ((String.utf8EncodeChar c).length = (String.utf8EncodeChar d).length ∧
    bytesFrom mem (behind sx xs.reverse) (String.utf8EncodeChar c).length =
      bytesFrom mem (behind sy ys.reverse) (String.utf8EncodeChar c).length) ↔ c = d := by
  obtain ⟨⟨after, hx⟩, after', hy⟩ := h
  have hcx := hx.bytesFrom_char
  have hdy := hy.bytesFrom_char
  constructor
  · rintro ⟨hlen, heq⟩
    rw [hcx, hlen, hdy] at heq
    exact utf8EncodeChar_injective heq
  · rintro rfl
    exact ⟨rfl, hcx.trans hdy.symm⟩

/-- **A swap is found** exactly when both neighbours are swapped and have one length. -/
theorem At.swapped_iff (h : At mem sx sy xs ys c d) :
    (1 < xs.length + 1 ∧ 1 < ys.length + 1 ∧ (String.utf8EncodeChar c).length = (String.utf8EncodeChar d).length ∧
      bytesFrom mem (behind sx xs.reverse) (String.utf8EncodeChar c).length =
        bytesFrom mem (behind sy ys.reverse - (String.utf8EncodeChar d).length) (String.utf8EncodeChar c).length ∧
      bytesFrom mem (behind sx xs.reverse - (String.utf8EncodeChar c).length) (String.utf8EncodeChar c).length =
        bytesFrom mem (behind sy ys.reverse) (String.utf8EncodeChar c).length) ↔
    (String.utf8EncodeChar c).length = (String.utf8EncodeChar d).length ∧ ∃ xs' ys', xs = d :: xs' ∧ ys = c :: ys' := by
  obtain ⟨⟨after, hx⟩, after', hy⟩ := h
  have hcx := hx.bytesFrom_char
  have hdy := hy.bytesFrom_char
  constructor
  · rintro ⟨hxs, hys, hlen, hback, hback'⟩
    obtain ⟨c', xs', rfl⟩ := List.exists_cons_of_length_pos (Nat.lt_of_succ_lt_succ hxs)
    obtain ⟨d', ys', rfl⟩ := List.exists_cons_of_length_pos (Nat.lt_of_succ_lt_succ hys)
    rw [hcx, ← hlen] at hback
    rw [hlen, hdy] at hback'
    have hc := (bytesFrom_back_iff (bytesFrom_previous hy rfl)).mp hback.symm
    have hd := (bytesFrom_back_iff (bytesFrom_previous hx rfl)).mp hback'
    exact ⟨hlen, xs', ys', by rw [hd], by rw [hc]⟩
  · rintro ⟨hlen, xs', ys', rfl, rfl⟩
    refine ⟨by simp, by simp, hlen, ?_, ?_⟩
    · rw [hcx, ← hlen]
      exact ((bytesFrom_back_iff (bytesFrom_previous hy rfl)).mpr rfl).symm
    · rw [hlen, hdy]
      exact (bytesFrom_back_iff (bytesFrom_previous hx rfl)).mpr rfl

/-- The swaps, from the second text to the first one. -/
def transposesWidthBack (transposition : Bool) (d c : Char) : Prop := transposesWidth transposition c d

/-- What the loop writes, in the table that has a row for each column. -/
def columnCell (mem : ℤ → UInt8) (transposition : Bool) (sx sy : ℤ) (c : Char) (xs : List Char) (ys : List Char)
    (dists : ℕ → ℕ → ℕ) : ℕ :=
  calcCell mem transposition (fun x y => dists y x) (xs.length + 1) ys.length (behind sx xs.reverse)
    (behind sy ys.tail.reverse) (String.utf8EncodeChar c).length (String.utf8EncodeChar (ys.headD '\x00')).length % 2 ^ 32

/-- **The cells of a column are right.** -/
theorem cellRight_columnCell {before after : List Char} (hx : TextAt mem sx (xs.reverse ++ c :: after))
    (hy : TextAt mem sy (Y ++ before)) (hsmall : Y.length + xs.length + 2 < 2 ^ 32) :
    CellRight (transposesWidthBack transposition) Y c xs (columnCell mem transposition sx sy c xs) := by
  intro d ys rest dists hY hleft hup hup₂
  have hlength : ys.length + 1 ≤ Y.length := by
    rw [hY, List.length_append, List.length_reverse, List.length_cons]
    omega
  have hY' : Y = (d :: ys).reverse ++ rest := by
    rw [hY, List.reverse_cons, List.append_assoc]
    rfl
  have hat : At mem sx sy xs ys c d := by
    refine ⟨⟨after, hx⟩, rest ++ before, ?_⟩
    rw [hY, List.append_assoc] at hy
    exact hy
  have hdelete := hup.at_part rest hY'
  have hdiagonal := hup.at_part (d :: rest) hY
  rw [List.length_cons] at hdelete
  have hbound := distance_le_add (transposesWidthBack transposition) (d :: ys) (c :: xs)
  rw [List.length_cons, List.length_cons] at hbound
  suffices hcell : calcCell mem transposition (fun x y => dists y x) (xs.length + 1) (ys.length + 1)
      (behind sx xs.reverse) (behind sy ys.reverse) (String.utf8EncodeChar c).length (String.utf8EncodeChar d).length =
      distance (transposesWidthBack transposition) (d :: ys) (c :: xs) by
    show calcCell _ _ _ _ _ _ _ _ _ % 2 ^ 32 = _
    rw [← Nat.mod_eq_of_lt (show distance (transposesWidthBack transposition) (d :: ys) (c :: xs) < 2 ^ 32 by omega),
      ← hcell]
    rfl
  rw [calcCell]
  by_cases heq : c = d
  · subst heq
    rw [if_pos (hat.same_iff.mpr rfl), distance_cons_self]
    exact hdiagonal
  · have hnot := mt hat.same_iff.mp heq
    simp only [if_neg hnot, Nat.add_sub_cancel, hdelete, hleft, hdiagonal, Pat.least_eq]
    have hmin : min (min (distance (transposesWidthBack transposition) (d :: ys) xs)
        (distance (transposesWidthBack transposition) ys (c :: xs))) (distance (transposesWidthBack transposition) ys xs) +
          1 = unswapped (transposesWidthBack transposition) d c ys xs := by
      rw [unswapped, Nat.min_comm (distance _ ys (c :: xs))]
    rw [hmin]
    by_cases hswap : transposition = true ∧ (String.utf8EncodeChar c).length = (String.utf8EncodeChar d).length ∧
        ∃ xs' ys', xs = d :: xs' ∧ ys = c :: ys'
    · obtain ⟨htrue, hwidth, xs', ys', rfl, rfl⟩ := hswap
      have hindex : dists ys'.length xs'.length = distance (transposesWidthBack transposition) ys' xs' :=
        (hup₂ d xs' rfl).at_part (c :: d :: rest) (by
          rw [hY, List.reverse_cons, List.append_assoc]
          rfl)
      rw [if_pos ⟨htrue, hat.swapped_iff.mpr ⟨hwidth, xs', ys', rfl, rfl⟩⟩,
        distance_cons_cons_swap (Ne.symm heq) ⟨htrue, hwidth⟩]
      show (if _ < dists ys'.length xs'.length + 1 then _ else dists ys'.length xs'.length + 1) = _
      rw [hindex]
      split_ifs <;> omega
    · rw [if_neg fun h => hswap ⟨h.1, hat.swapped_iff.mp h.2⟩]
      refine (distance_cons_cons (Ne.symm heq) fun ys' xs' hys hxs h => hswap ⟨h.1, h.2, xs', ys', hxs, hys⟩).symm

theorem writeCell_transpose (dists : ℕ → ℕ → ℕ) (x y value : ℕ) :
    (fun j i => writeCell dists x y value i j) = writeCell (fun j i => dists i j) y x value := by
  funext j i
  exact if_congr and_comm rfl rfl

theorem behind_cons_reverse (p : ℤ) (c : Char) (xs : List Char) :
    behind p (c :: xs).reverse = behind p xs.reverse + (String.utf8EncodeChar c).length := by
  rw [List.reverse_cons, behind_append, behind, utf8_cons, show utf8 [] = [] from rfl, List.append_nil]

/-- The loop over `py` writes one cell after the other. -/
theorem calcColumn_eq_fillRow {after : List Char} (hy : TextAt mem sy (ys.reverse ++ (restY ++ after)))
    (hnul : ∀ d ∈ restY, d ≠ '\x00') :
    (fun j i => calcColumn mem transposition (xs.length + 1) (behind sx xs.reverse) (String.utf8EncodeChar c).length
      (behind sy (ys.reverse ++ (restY ++ after))) restY.length (ys.length + 1) (behind sy ys.reverse) dists i j) =
      fillRow (columnCell mem transposition sx sy c xs) (xs.length + 1) ys restY (fun j i => dists i j) := by
  induction restY generalizing ys dists with
  | nil => rfl
  | cons d rest ih =>
    rw [List.cons_append] at hy ⊢
    have hnext : ys.reverse ++ d :: (rest ++ after) = (d :: ys).reverse ++ (rest ++ after) := by
      rw [List.reverse_cons, List.append_assoc]
      rfl
    have hcharlen := hy.charlen_eq (hnul d List.mem_cons_self)
    rw [List.length_cons, fillRow]
    simp only [calcColumn]
    rw [hcharlen, ← behind_cons_reverse, hnext]
    rw [hnext] at hy
    have hrest := @ih (d :: ys) (writeCell dists (xs.length + 1) (ys.length + 1) (columnCell mem transposition sx sy c xs
      (d :: ys) fun j i => dists i j)) hy fun d' hd' => hnul d' (List.mem_cons_of_mem _ hd')
    rw [writeCell_transpose] at hrest
    exact hrest

/-- The loop over `px` fills one column after the other. -/
theorem calcColumns_rows {afterX afterY : List Char} (hx : TextAt mem sx (xs.reverse ++ (restX ++ afterX)))
    (hy : TextAt mem sy (Y ++ afterY)) (hnulX : ∀ c ∈ restX, c ≠ '\x00') (hnulY : ∀ d ∈ Y, d ≠ '\x00') {lx : ℕ}
    (hlx : xs.length + restX.length = lx) (hsmall : Y.length + lx + 2 < 2 ^ 32)
    (hrows : Rows (transposesWidthBack transposition) Y lx (fun j i => dists i j) xs) :
    Rows (transposesWidthBack transposition) Y lx (fun j i => calcColumns mem transposition
      (behind sx (xs.reverse ++ (restX ++ afterX))) sy (behind sy (Y ++ afterY)) Y.length restX.length (xs.length + 1)
      (behind sx xs.reverse) dists i j) (restX.reverse ++ xs) := by
  induction restX generalizing xs dists with
  | nil => exact hrows
  | cons c rest ih =>
    rw [List.cons_append] at hx ⊢
    have hnext : xs.reverse ++ c :: (rest ++ afterX) = (c :: xs).reverse ++ (rest ++ afterX) := by
      rw [List.reverse_cons, List.append_assoc]
      rfl
    rw [List.length_cons] at hlx
    have hcharlen := hx.charlen_eq (hnulX c List.mem_cons_self)
    have hcolumn := @calcColumn_eq_fillRow mem transposition sx sy xs [] Y c dists afterY hy hnulY
    have hcons := hrows.cons (by omega) (cellRight_columnCell hx hy (by omega))
    rw [← hcolumn] at hcons
    have hrest := ih (hnext ▸ hx) (fun c' hc' => hnulX c' (List.mem_cons_of_mem _ hc'))
      (by rw [List.length_cons]; omega) hcons
    rw [← hnext, behind_cons_reverse, List.reverse_nil, behind_nil] at hrest
    rw [List.reverse_cons, List.append_assoc, List.length_cons]
    simp only [calcColumns]
    rw [hcharlen]
    exact hrest

/-- **The sequential search computes the distance** of the characters before a NUL, whose neighbours may be swapped
if they have one length. -/
theorem calcEditDistance_eq {x y : List Char} (hx : TextAt mem sx x) (hy : TextAt mem sy y)
    (hsmall : (beforeNul y).length + (beforeNul x).length + 2 < 2 ^ 32) (dists : ℕ → ℕ → ℕ) :
    calcEditDistance mem dists sx (behind sx x) sy (behind sy y) transposition =
      distance (transposesWidth transposition) (beforeNul x) (beforeNul y) := by
  have hnul : ∀ {text : List Char}, ∀ c ∈ beforeNul text, c ≠ '\x00' := fun c hc => by
    have hc' := List.mem_takeWhile_imp hc
    rwa [decide_eq_true_eq] at hc'
  have hsplit : ∀ text : List Char, text = beforeNul text ++ text.dropWhile (· ≠ '\x00') := fun text =>
    List.takeWhile_append_dropWhile.symm
  obtain ⟨X, hX⟩ : ∃ X, X = beforeNul x := ⟨_, rfl⟩
  obtain ⟨Y, hY⟩ : ∃ Y, Y = beforeNul y := ⟨_, rfl⟩
  rw [calcEditDistance, hx.countCharacters_eq, hy.countCharacters_eq, ← hX, ← hY]
  rw [← hX, ← hY] at hsmall
  obtain ⟨dists', hdists'⟩ : ∃ dists', dists' = (List.range (Y.length + 1)).foldl (fun dists y => writeCell dists 0 y y)
      ((List.range (X.length + 1)).foldl (fun dists x => writeCell dists x 0 x) dists) := ⟨_, rfl⟩
  have hcell : ∀ i j, dists' i j = if i = 0 ∧ j < Y.length + 1 then j else if i < X.length + 1 ∧ j = 0 then i
      else dists i j := by
    intro i j
    have hrow := foldl_writeCell_row dists id (X.length + 1) i j
    have hcolumn := foldl_writeCell_column ((List.range (X.length + 1)).foldl
      (fun dists x => writeCell dists x 0 x) dists) id (Y.length + 1) i j
    rw [hdists']
    exact hcolumn.trans (if_congr Iff.rfl rfl hrow)
  have hinit : Rows (transposesWidthBack transposition) Y X.length (fun j i => dists' i j) [] := by
    refine rows_nil (fun j hj => ?_) fun i hi => ?_
    · show dists' j 0 = j
      rw [hcell]
      split_ifs with hzero hrow
      · exact hzero.1.symm
      · rfl
      · exact absurd ⟨Nat.lt_succ_of_le hj, rfl⟩ hrow
    · exact (hcell 0 i).trans (if_pos ⟨rfl, Nat.lt_succ_of_le hi⟩)
  rw [hsplit x, ← hX] at hx
  rw [hsplit y, ← hY] at hy
  have hrows := @calcColumns_rows mem transposition sx sy Y [] X dists' _ _ hx hy (hX ▸ hnul) (hY ▸ hnul) _
    (Nat.zero_add _) hsmall hinit
  have hlast := hrows.rows _ List.suffix_rfl Y.length (Nat.le_refl _)
  rw [List.append_nil, List.length_reverse, List.take_length,
    distance_reverse (fun a b h => ⟨h.1, h.2.symm⟩)] at hlast
  rw [← hdists']
  have hend : ∀ text : List Char, beforeNul text ++ text.dropWhile (· ≠ '\x00') = text := fun text => (hsplit text).symm
  rw [List.reverse_nil, List.nil_append, behind_nil, hX, hY, hend, hend, ← hX, ← hY] at hlast
  exact hlast.trans (distance_comm (transposesWidth transposition) X Y)

/-! ## Agreement -/

/-- `GRN_TABLE_MAX_KEY_SIZE`, which bounds a query and the distance of an indexed search. -/
def tableMaxKeySize : ℕ := 4096

/-- **The two calculations agree** on two texts in memory, if the table of the patricia trie has enough rows for the
second one. -/
def Agrees (mem : ℤ → UInt8) (dists memory : ℕ → ℕ → ℕ) (sx sy : ℤ) (x y : List Char) (transposition : Bool)
    (maxDistance : ℕ) : Prop :=
  (characters (utf8 y)).length ≤ (characters (utf8 x)).length + maxDistance →
    calcEditDistance mem dists sx (behind sx x) sy (behind sy y) transposition =
      (Pat.calcEditDistance (Pat.initData memory (utf8 x) transposition maxDistance 0 0) (utf8 y) 0).2

/-- No neighbours of different lengths are swapped, where neighbours may be swapped. -/
def SwapsOneWidth (transposition : Bool) (x y : List Char) : Prop :=
  ∀ c d, Pat.transposes transposition c d → [c, d] <:+: beforeNul x → [d, c] <:+: beforeNul y →
    (String.utf8EncodeChar c).length = (String.utf8EncodeChar d).length

/-- What both calculations compute. -/
theorem agrees_iff (memory : ℕ → ℕ → ℕ) {x y : List Char} (hx : TextAt mem sx x) (hy : TextAt mem sy y)
    (hlength : (utf8 x).length ≤ tableMaxKeySize) {maxDistance : ℕ} (hmax : maxDistance ≤ tableMaxKeySize) :
    Agrees mem dists memory sx sy x y transposition maxDistance ↔
      ((beforeNul y).length ≤ (beforeNul x).length + maxDistance →
        distance (transposesWidth transposition) (beforeNul x) (beforeNul y) =
          distance (Pat.transposes transposition) (beforeNul x) (beforeNul y)) := by
  have hle := (length_characters_le (utf8 x)).trans hlength
  rw [tableMaxKeySize] at hle hmax
  have hcalculated := Pat.calcEditDistance_initData memory (utf8 x) (utf8 y) transposition maxDistance 0 0 (by omega)
  have hnear := hcalculated.near
  have hdistance : distance (Pat.transposes transposition) (characters (utf8 x)) (characters (utf8 y)) =
      distance (Pat.transposes transposition) (beforeNul x) (beforeNul y) := by
    rw [characters_utf8, characters_utf8]
    exact distance_map utf8EncodeChar_injective _ _
  have hcount : ∀ text, (characters (utf8 text)).length = (beforeNul text).length := fun text => by
    rw [characters_utf8, List.length_map]
  rw [hcount] at hle
  rw [Agrees, hcount, hcount]
  refine forall_congr' fun hfits => ?_
  rw [calcEditDistance_eq hx hy (by omega) dists]
  have hvalue := hnear (by
    show (characters (utf8 y)).length ≤ (characters (utf8 x)).length + maxDistance
    rw [hcount, hcount]
    exact hfits)
  rw [hvalue]
  exact Eq.congr_right hdistance

/-- **The two calculations agree** unless neighbours of different lengths are swapped. -/
theorem agrees_of_swapsOneWidth (mem : ℤ → UInt8) (dists memory : ℕ → ℕ → ℕ) (sx sy : ℤ) (x y : List Char)
    (transposition : Bool) (maxDistance : ℕ) (hx : TextAt mem sx x) (hy : TextAt mem sy y)
    (hlength : (utf8 x).length ≤ tableMaxKeySize) (hmax : maxDistance ≤ tableMaxKeySize)
    (hwidth : SwapsOneWidth transposition x y) : Agrees mem dists memory sx sy x y transposition maxDistance := by
  refine (agrees_iff memory hx hy hlength hmax).mpr fun _ => distance_congr fun c d hxs hys => ?_
  exact ⟨fun h => h.1, fun h => ⟨h, hwidth c d h hxs hys⟩⟩

/-- A memory with some bytes from address 0 on. -/
def memoryOf (bytes : List UInt8) (p : ℤ) : UInt8 := if p < 0 then 0 else bytes.getD p.toNat 0

/-- The texts `ab` and `ba` one behind the other: their neighbours are swapped, and have one length. -/
theorem agrees_ab : Agrees (memoryOf (utf8 ['a', 'b', 'b', 'a'])) (fun _ _ => 0) (fun _ _ => 0) 0 2 ['a', 'b'] ['b', 'a']
    true 1 := by
  refine agrees_of_swapsOneWidth _ _ _ _ _ _ _ _ _ ?_ ?_ (by decide) (by rw [tableMaxKeySize]; omega)
    fun c d _ hx _ => ?_
  · show bytesFrom _ _ _ = _
    decide
  · show bytesFrom _ _ _ = _
    decide
  · have hone : ∀ e ∈ beforeNul ['a', 'b'], (String.utf8EncodeChar e).length = 1 := by
      intro e he
      rcases List.mem_cons.mp he with rfl | he
      · rfl
      · obtain rfl := List.mem_singleton.mp he
        rfl
    rw [hone c (hx.subset List.mem_cons_self), hone d (hx.subset (List.mem_cons_of_mem _ List.mem_cons_self))]

/-- **Swapped neighbours of different lengths** make the calculations disagree, whatever is before and behind
them: the sequential search finds two changes at least, and the indexed search one. -/
theorem not_agrees_of_swapped {before after : List Char} (hc : c ≠ '\x00') (hd : d ≠ '\x00')
    (hbefore : ∀ b ∈ before, b ≠ '\x00')
    (hwidth : (String.utf8EncodeChar c).length ≠ (String.utf8EncodeChar d).length) (memory : ℕ → ℕ → ℕ)
    (hx : TextAt mem sx (before ++ c :: d :: after)) (hy : TextAt mem sy (before ++ d :: c :: after))
    (hlength : (utf8 (before ++ c :: d :: after)).length ≤ tableMaxKeySize) {maxDistance : ℕ}
    (hmax : maxDistance ≤ tableMaxKeySize) :
    ¬ Agrees mem dists memory sx sy (before ++ c :: d :: after) (before ++ d :: c :: after) true maxDistance := by
  have hne : c ≠ d := fun h => hwidth (h ▸ rfl)
  have hcut : ∀ a b : Char, a ≠ '\x00' → b ≠ '\x00' →
      beforeNul (before ++ a :: b :: after) = before ++ a :: b :: beforeNul after := by
    intro a b ha hb
    rw [beforeNul, List.takeWhile_append_of_pos (fun e he => decide_eq_true (hbefore e he))]
    simp [beforeNul, ha, hb]
  rw [agrees_iff memory hx hy hlength hmax, hcut c d hc hd, hcut d c hd hc]
  intro h
  have hlength : (before ++ d :: c :: beforeNul after).length ≤
      (before ++ c :: d :: beforeNul after).length + maxDistance := by simp
  have hfar : 1 < distance (transposesWidth true) (before ++ c :: d :: beforeNul after)
      (before ++ d :: c :: beforeNul after) :=
    one_lt_distance_of_swapped hne (fun h => hwidth h.2) before (beforeNul after)
  have hnear : distance (Pat.transposes true) (before ++ c :: d :: beforeNul after)
      (before ++ d :: c :: beforeNul after) ≤ 1 := by
    have hswap : Alignment (Pat.transposes true) (c :: d :: beforeNul after) (d :: c :: beforeNul after) (0 + 1) :=
      .swap (show Pat.transposes true c d from rfl) (.keeps _ (beforeNul after))
    exact ((Alignment.keeps _ before).append hswap).distance_le
  rw [h hlength] at hfar
  omega

/-- **The calculations disagree** on `aあ` and `あa`: the sequential search does not find the swap. -/
theorem not_agrees_kana : ¬ Agrees (memoryOf (utf8 ['a', 'あ', 'あ', 'a'])) (fun _ _ => 0) (fun _ _ => 0) 0 4 ['a', 'あ']
    ['あ', 'a'] true 1 := by
  intro h
  exact absurd (h (by decide)) (by decide +kernel)

end Groonga.Proc
