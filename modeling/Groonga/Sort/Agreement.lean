import Groonga.Lib.SortedWindow
import Groonga.Sort.Paths
import Mathlib

/-!
# Sorting with an index and without

Both ways append the records of the wanted range in an order of their values: the terms of the
lexicon stand in the order of the encoded values, and the parted array is sorted in the window of
the range. So the values that are listed are the same. The numbers that are returned differ: with
an index, the records that the offset skips are counted as well.
-/

namespace Groonga.Sort

open Lib Pat Lib.Patricia

/-! ## Parting the array in place -/

section
variable {α : Type} {gt : α → α → Bool} {first : α} {n : ℕ} {a b : ℕ → α} {p : PackState α}

/-- What was between the two ends before does not matter. -/
theorem packItems_congr {xs : List α} {head tail : ℕ} (htail : tail = head + xs.length) (htn : tail ≤ n)
    (hsame : ∀ i ≤ n, i < head ∨ tail < i → a i = b i) :
    (packItems gt first xs head tail a).1 = (packItems gt first xs head tail b).1 ∧
      ∀ i ≤ n, (packItems gt first xs head tail a).2 i = (packItems gt first xs head tail b).2 i := by
  induction xs generalizing head tail a b with
  | nil =>
    obtain rfl : tail = head := htail
    refine ⟨rfl, fun i hi => ?_⟩
    simp only [packItems, Function.update_apply]
    split_ifs with hih
    · rfl
    · exact hsame i hi (Nat.lt_or_gt_of_ne hih)
  | cons x xs ih =>
    rw [List.length_cons] at htail
    simp only [packItems]
    split_ifs
    · refine ih (by omega) htn fun i hi hout => ?_
      rw [Function.update_apply, Function.update_apply]
      split_ifs with hih
      · rfl
      · exact hsame i hi (by omega)
    · refine ih (by omega) (by omega) fun i hi hout => ?_
      rw [Function.update_apply, Function.update_apply]
      split_ifs with hit
      · rfl
      · exact hsame i hi (by omega)

/-- The entries that are still to be looked at, in the order in which they are. -/
def PackState.pending (p : PackState α) : List α :=
  (List.range' p.target (p.tail + 1 - p.target)).map p.entries ++ p.queue

/-- The two ends leave as many places as entries are pending, and one more. -/
structure PackState.Fits (p : PackState α) (n : ℕ) : Prop where
  head_lt : p.head < p.target
  target_le : p.target ≤ p.tail + 1
  tail_le : p.tail ≤ n
  tail_eq : p.tail = p.head + p.pending.length

/-- What becomes of the array when the pending entries go to the two ends. -/
def PackState.result (gt : α → α → Bool) (first : α) (p : PackState α) : ℕ × (ℕ → α) :=
  packItems gt first p.pending p.head p.tail p.entries

/-- The same position, and the same entries up to `n`. -/
def SameUpTo (n : ℕ) (r r' : ℕ × (ℕ → α)) : Prop := r.1 = r'.1 ∧ ∀ i ≤ n, r.2 i = r'.2 i

theorem SameUpTo.trans {r r' r'' : ℕ × (ℕ → α)} (h : SameUpTo n r r') (h' : SameUpTo n r' r'') :
    SameUpTo n r r'' :=
  ⟨h.1.trans h'.1, fun i hi => (h.2 i hi).trans (h'.2 i hi)⟩

/-- The target is the first of the pending entries. -/
theorem PackState.pending_eq (p : PackState α) (h : p.target ≤ p.tail) : p.pending =
    p.entries p.target :: ((List.range' (p.target + 1) (p.tail - p.target)).map p.entries ++ p.queue) := by
  rw [pending, show p.tail + 1 - p.target = p.tail - p.target + 1 by omega, List.range'_succ,
    List.map_cons, List.cons_append]

theorem length_map_range' (p : PackState α) (k : ℕ) :
    ((List.range' (p.target + 1) k).map p.entries ++ p.queue).length = k + p.queue.length := by
  rw [List.length_append, List.length_map, List.length_range']

/-- **One round** of the first loop. -/
theorem PackState.Fits.forward (h : p.Fits n) (hlt : p.target < p.tail) :
    (p.forward gt first).Fits n ∧ SameUpTo n ((p.forward gt first).result gt first) (p.result gt first) := by
  obtain ⟨hhead, -, htn, htail⟩ := h
  rw [p.pending_eq hlt.le, List.length_cons, length_map_range'] at htail
  have hresult : p.result gt first = packItems gt first (p.entries p.target ::
      ((List.range' (p.target + 1) (p.tail - p.target)).map p.entries ++ p.queue)) p.head p.tail p.entries := by
    rw [result, p.pending_eq hlt.le]
  by_cases hgt : gt first (p.entries p.target) = true
  · -- to the front: the target is swapped with what is no longer needed
    have hforward : p.forward gt first = { p with
        entries := swapAt p.entries p.head p.target, head := p.head + 1, target := p.target + 1 } := if_pos hgt
    have hpending : (p.forward gt first).pending =
        (List.range' (p.target + 1) (p.tail - p.target)).map p.entries ++ p.queue := by
      rw [hforward, pending]
      dsimp only
      rw [show p.tail + 1 - (p.target + 1) = p.tail - p.target by omega]
      congr 1
      refine List.map_congr_left fun i hi => ?_
      rw [List.mem_range'_1] at hi
      exact swapAt_of_ne (by omega) (by omega)
    rw [hresult, packItems, if_pos hgt, result, hpending]
    refine ⟨⟨?_, ?_, ?_, ?_⟩, ?_⟩
    · rw [hforward]
      exact Nat.succ_lt_succ hhead
    · rw [hforward]
      exact Nat.succ_le_succ hlt.le
    · rw [hforward]
      exact htn
    · rw [hpending, length_map_range', hforward]
      dsimp only
      omega
    · rw [hforward]
      refine packItems_congr (by rw [length_map_range']; dsimp only; omega) htn fun i hi hout => ?_
      dsimp only at hout
      exact Function.update_of_ne (by omega) _ _
  · -- to the back: the last entry makes room and is queued
    have hforward : p.forward gt first = { p with
        queue := p.entries p.tail :: p.queue
        entries := Function.update p.entries p.tail (p.entries p.target)
        tail := p.tail - 1
        target := p.target + 1 } := if_neg hgt
    have hpending : (p.forward gt first).pending =
        (List.range' (p.target + 1) (p.tail - p.target)).map p.entries ++ p.queue := by
      rw [hforward, pending]
      dsimp only
      rw [show p.tail - 1 + 1 - (p.target + 1) = p.tail - p.target - 1 by omega,
        show p.tail - p.target = p.tail - p.target - 1 + 1 by omega, List.range'_concat,
        List.map_append, List.append_assoc]
      congr 1
      · refine List.map_congr_left fun i hi => ?_
        rw [List.mem_range'_1] at hi
        exact Function.update_of_ne (by omega) _ _
      · rw [List.map_singleton, show p.target + 1 + 1 * (p.tail - p.target - 1) = p.tail by omega]
        rfl
    rw [hresult, packItems, if_neg hgt, result, hpending]
    refine ⟨⟨?_, ?_, ?_, ?_⟩, ?_⟩
    · rw [hforward]
      exact hhead.trans (Nat.lt_succ_self _)
    · rw [hforward]
      dsimp only
      omega
    · rw [hforward]
      dsimp only
      omega
    · rw [hpending, length_map_range', hforward]
      dsimp only
      omega
    · rw [hforward]
      exact ⟨rfl, fun _ _ => rfl⟩

theorem PackState.Fits.forwardLoop (h : p.Fits n) {fuel : ℕ} (hpos : 0 < fuel) (hfuel : p.tail ≤ p.target + fuel - 1) :
    ∃ p', forwardLoop gt first fuel p = some p' ∧ p'.Fits n ∧ p'.tail ≤ p'.target ∧
      SameUpTo n (p'.result gt first) (p.result gt first) := by
  induction fuel generalizing p with
  | zero => exact absurd hpos (Nat.lt_irrefl 0)
  | succ fuel ih =>
    rw [Sort.forwardLoop]
    split_ifs with hlt
    · obtain ⟨hfits, hsame⟩ := @forward α gt first n p h hlt
      have htarget : (p.forward gt first).target = p.target + 1 := by
        rw [PackState.forward]
        split_ifs <;> rfl
      have htail : (p.forward gt first).tail ≤ p.tail := by
        rw [PackState.forward]
        split_ifs
        · exact le_rfl
        · exact Nat.sub_le _ _
      obtain ⟨p', heq, hfits', hend, hsame'⟩ := ih hfits (by omega) (by omega)
      exact ⟨p', heq, hfits', hend, hsame'.trans hsame⟩
    · exact ⟨p, rfl, h, Nat.not_lt.mp hlt, rfl, fun _ _ => rfl⟩

/-- **The end of the first loop**: all pending entries are in the queue. -/
theorem PackState.Fits.meet (h : p.Fits n) (hend : p.tail ≤ p.target) :
    SameUpTo n (packItems gt first (p.meet gt first).queue (p.meet gt first).head (p.meet gt first).tail
      (p.meet gt first).entries) (p.result gt first) := by
  obtain ⟨hhead, hle, htn, htail⟩ := h
  by_cases hmeet : p.target = p.tail
  · have hpending : p.pending = p.entries p.target :: p.queue := by
      rw [p.pending_eq hmeet.le, hmeet, Nat.sub_self]
      rfl
    rw [hpending, List.length_cons] at htail
    rw [result, hpending, packItems]
    by_cases hgt : gt first (p.entries p.target) = true
    · have hstate : p.meet gt first = { p with
          entries := swapAt p.entries p.head p.target, head := p.head + 1 } := by
        rw [PackState.meet, if_pos hmeet, if_pos hgt]
      rw [if_pos hgt, hstate]
      refine packItems_congr (by dsimp only; omega) htn fun i hi hout => ?_
      dsimp only at hout
      exact Function.update_of_ne (by omega) _ _
    · have hstate : p.meet gt first = { p with queue := p.entries p.tail :: p.queue } := by
        rw [PackState.meet, if_pos hmeet, if_neg hgt]
      rw [hstate, if_neg hgt]
      dsimp only
      rw [← hmeet, packItems, if_neg hgt]
      exact ⟨rfl, fun _ _ => rfl⟩
  · have hstate : p.meet gt first = p := if_neg hmeet
    have hpending : p.pending = p.queue := by
      rw [pending, show p.tail + 1 - p.target = 0 by omega]
      rfl
    rw [hstate, result, hpending]
    exact ⟨rfl, fun _ _ => rfl⟩

/-- **`sort_value_pack`** parts the entries by the first one. -/
theorem sortValuePack_spec (entries : ℕ → α) :
    ∃ r, sortValuePack gt (n + 1) entries = some (if 2 < n + 1 then some r.1 else none, r.2) ∧
      Packed gt (entries 0) ((List.range (n + 1)).map entries) n r := by
  have hfits : (⟨0, n, 1, [], entries⟩ : PackState α).Fits n := by
    refine ⟨Nat.zero_lt_one, Nat.le_add_left _ _, le_rfl, ?_⟩
    simp [PackState.pending]
  have hlist : (List.range 0).map entries ++ entries 0 :: (List.range' 1 n).map entries ++
      (List.range' (n + 1) (n - n)).map entries = (List.range (n + 1)).map entries := by
    rw [Nat.sub_self, List.range'_zero, List.map_nil, List.append_nil, List.range_zero, List.map_nil,
      List.nil_append, List.range_eq_range', List.range'_succ, List.map_cons]
  have hpacked := @packItems_spec α gt entries (entries 0) ((List.range' 1 n).map entries) 0 n n
    (by simp) le_rfl (fun i hi => absurd hi (Nat.not_lt_zero i)) fun i hi₁ hi₂ => absurd hi₁ (by omega)
  rw [hlist] at hpacked
  have hresult : (⟨0, n, 1, [], entries⟩ : PackState α).result gt (entries 0) =
      packItems gt (entries 0) ((List.range' 1 n).map entries) 0 n entries := by
    rw [PackState.result, PackState.pending]
    simp
  obtain ⟨p, hloop, hfits', hend, hsame⟩ := @PackState.Fits.forwardLoop α gt (entries 0) n _ hfits (n + 1)
    (Nat.succ_pos n) (by dsimp only; omega)
  have hall := (@PackState.Fits.meet α gt (entries 0) n p hfits' hend).trans (hresult ▸ hsame)
  refine ⟨_, by rw [sortValuePack, Nat.add_sub_cancel, hloop]; rfl, ?_⟩
  refine ⟨hall.1 ▸ hpacked.le, ?_, ?_, fun i hi => ?_, fun i hi₁ hi₂ => ?_⟩
  · refine (List.Perm.of_eq ?_).trans hpacked.perm
    exact List.map_congr_left fun i hi => hall.2 i (Nat.le_of_lt_succ (List.mem_range.mp hi))
  · have hle := hpacked.le
    rw [hall.1, hall.2 _ hle]
    exact hpacked.middle
  · have hle := hpacked.le
    rw [hall.1] at hi
    rw [hall.2 i (hi.le.trans hle)]
    exact hpacked.before i hi
  · rw [hall.1] at hi₁
    rw [hall.2 i hi₂]
    exact hpacked.behind i hi₁ hi₂

/-- **The wanted part of the array is sorted.** -/
theorem sortValueEntries_spec (hgt : StrictWeak gt) (offset limit : ℕ) (entries : ℕ → α) :
    ∃ a', sortValueEntries gt (n + 1) offset limit entries = some a' ∧
      ((List.range (n + 1)).map a').Perm ((List.range (n + 1)).map entries) ∧
      ∀ i j, i < j → j < n + 1 → (offset ≤ i ∧ i < offset + limit ∨ offset ≤ j ∧ j < offset + limit) →
        gt (a' i) (a' j) = false := by
  obtain ⟨r, hpack, hpacked⟩ := @sortValuePack_spec α gt n entries
  rw [sortValueEntries, hpack, Option.bind_some]
  by_cases hmany : 2 < n + 1
  · obtain ⟨a', hsort, hperm, hsorted⟩ := hpacked.sorts hgt offset ((offset + limit : ℕ) : ℤ)
    simp only [if_pos hmany]
    refine ⟨a', hsort, hperm, fun i j hij hj hin => hsorted i j (Nat.zero_le i) hij (by omega) ?_⟩
    rcases hin with hin | hin
    · exact .inl ⟨by omega, by omega⟩
    · exact .inr ⟨by omega, by omega⟩
  · -- two entries are sorted when they are parted
    simp only [if_neg hmany]
    refine ⟨r.2, rfl, hpacked.perm, fun i j hij hj _ => ?_⟩
    obtain rfl : i = 0 := by omega
    obtain rfl : j = 1 := by omega
    have hle := hpacked.le
    have hmiddle := hpacked.middle
    by_cases hzero : r.1 = 0
    · rw [hzero] at hmiddle
      rw [hmiddle]
      exact hpacked.behind 1 (by omega) (by omega)
    · rw [show r.1 = 1 by omega] at hmiddle
      rw [hmiddle]
      exact hgt.asymm _ _ (hpacked.before 0 (by omega))

end

/-! ## The order of values -/

/-- The key of a value in the lexicon, after `KEY_ENC`. -/
def lexiconKey (bigEndian : Bool) : ColumnType → List UInt8 → List UInt8
  | .text, value => value
  | .uint, value => keyEnc bigEndian .uint false [] value
  | .int, value => keyEnc bigEndian .int false [] value

/-- The values that a column of the type has: integers have 1, 2, 4 or 8 bytes. -/
def ColumnType.HasSize : ColumnType → ℕ → Prop
  | .text, _ => True
  | .uint, size => size = 1 ∨ size = 2 ∨ size = 4 ∨ size = 8
  | .int, size => size = 1 ∨ size = 2 ∨ size = 4 ∨ size = 8

variable {bigEndian : Bool} {type : ColumnType} {x y : List UInt8}

theorem strGreater_iff : Hash.strGreater x y = true ↔ y < x := by
  induction x generalizing y with
  | nil => exact iff_of_false Bool.false_ne_true (List.not_lt_nil y)
  | cons a x ih =>
    rcases y with _ | ⟨b, y⟩
    · exact iff_of_true rfl (List.nil_lt_cons a x)
    · rw [Hash.strGreater_cons, List.cons_lt_cons_iff, ih, UInt8.lt_iff_toNat_lt, UInt8.toNat_inj,
        @eq_comm _ a]

theorem strictWeak_cmpnum (num : List UInt8 → ℤ) : StrictWeak (cmpnum num) := by
  have heq : cmpnum num = fun a b => decide ((if 0 < b.length then (num b : WithBot ℤ) else ⊥) <
      if 0 < a.length then (num a : WithBot ℤ) else ⊥) := by
    funext a b
    rw [cmpnum]
    split_ifs
    · simp
    · exact (decide_eq_true (WithBot.bot_lt_coe _)).symm
    · exact (decide_eq_false not_lt_bot).symm
    · exact (decide_eq_false not_lt_bot).symm
  rw [heq]
  exact strictWeak_gt fun a : List UInt8 => if 0 < a.length then (num a : WithBot ℤ) else ⊥

theorem strictWeak_sortValueCompare (bigEndian : Bool) (type : ColumnType) (descending : Bool) :
    StrictWeak (sortValueCompare bigEndian type descending) := by
  have hplain : StrictWeak (valueGreater bigEndian type) := by
    cases type
    · exact Hash.strictWeak_strGreater
    · exact strictWeak_cmpnum _
    · exact strictWeak_cmpnum _
  cases descending
  · exact hplain
  · exact hplain.flip

/-- Encoded numbers of one size are in the order of the numbers. -/
theorem lt_iff_of_memcmp {k l : List UInt8} {v w : ℤ} (hlength : k.length = l.length)
    (h : memcmp k l = compare v w) : l < k ↔ w < v := by
  rw [← strGreater_iff, ← Hash.memcmp_gt_iff hlength, h, compare_gt_iff_gt]

theorem length_lexiconKey (bigEndian : Bool) (type : ColumnType) (x : List UInt8) :
    (lexiconKey bigEndian type x).length = x.length := by
  have hflip : ∀ bs : List UInt8, (flipSign bs).length = bs.length := fun bs => by
    cases bs <;> rfl
  cases type with
  | text => rfl
  | uint => exact length_grnHton bigEndian x
  | int => exact (hflip _).trans (length_grnHton bigEndian x)

/-- **Values are compared as the keys of the lexicon are.** -/
theorem valueGreater_iff (hx : type.HasSize x.length) (hxy : type ≠ .text → x.length = y.length) :
    valueGreater bigEndian type x y = true ↔ lexiconKey bigEndian type y < lexiconKey bigEndian type x := by
  have hpos : ∀ {z : List UInt8}, (z.length = 1 ∨ z.length = 2 ∨ z.length = 4 ∨ z.length = 8) →
      0 < z.length := by omega
  cases type with
  | text => exact strGreater_iff
  | uint =>
    have hlength := hxy (by simp)
    have hkeys := (length_lexiconKey bigEndian .uint x).trans
      (hlength.trans (length_lexiconKey bigEndian .uint y).symm)
    have hcmp : memcmp (keyEnc bigEndian .uint false [] x) (keyEnc bigEndian .uint false [] y) =
        compare (hostNat bigEndian x : ℤ) (hostNat bigEndian y : ℤ) := by
      rw [memcmp_keyEnc_uint bigEndian [] [] hlength]
      simp only [compare, compareOfLessAndEq, Nat.cast_lt, Nat.cast_inj]
    rw [valueGreater, cmpnum, if_pos (hpos hx), if_pos (hlength ▸ hpos hx), decide_eq_true_iff]
    exact (lt_iff_of_memcmp hkeys hcmp).symm
  | int =>
    have hlength := hxy (by simp)
    have hkeys := (length_lexiconKey bigEndian .int x).trans
      (hlength.trans (length_lexiconKey bigEndian .int y).symm)
    have hne : y ≠ [] := List.ne_nil_of_length_pos (hlength ▸ hpos hx)
    have hcmp := memcmp_keyEnc_int bigEndian false [] [] hlength hne
    rw [valueGreater, cmpnum, if_pos (hpos hx), if_pos (hlength ▸ hpos hx), decide_eq_true_iff]
    exact (lt_iff_of_memcmp hkeys hcmp).symm

/-- Values have different keys. -/
theorem lexiconKey_injective (hx : type.HasSize x.length) (hy : type.HasSize y.length)
    (h : lexiconKey bigEndian type x = lexiconKey bigEndian type y) : x = y := by
  cases type with
  | text => exact h
  | uint =>
    have hdec := keyDec_keyEnc bigEndian .uint false [] [] hx
    rw [show keyEnc bigEndian .uint false [] x = keyEnc bigEndian .uint false [] y from h,
      keyDec_keyEnc bigEndian .uint false [] [] hy] at hdec
    exact hdec.symm
  | int =>
    have hdec := keyDec_keyEnc bigEndian .int false [] [] hx
    rw [show keyEnc bigEndian .int false [] x = keyEnc bigEndian .int false [] y from h,
      keyDec_keyEnc bigEndian .int false [] [] hy] at hdec
    exact hdec.symm

/-! ## The range -/

theorem grnOutputRangeNormalize_spec {size : ℕ} {offset limit : ℤ} {range : ℕ × ℕ}
    (h : grnOutputRangeNormalize size offset limit = .ok range) :
    range.1 + range.2 ≤ size ∧ (range.1 = 0 ↔ offset = 0 ∨ offset < 0 ∧ offset + size ≤ 0) := by
  rw [grnOutputRangeNormalize] at h
  simp only at h
  generalize hl : (if limit < 0 then limit + size + 1 else if (size : ℤ) < limit then (size : ℤ) else limit) = l at h
  have hle : l ≤ size := by
    split_ifs at hl <;> omega
  by_cases hlow : l < 0
  · rw [if_pos hlow] at h
    cases h
  rw [if_neg hlow] at h
  by_cases hsmall : offset < 0 ∧ offset + size < 0 ∧ l + (offset + size) < 0
  · rw [if_pos hsmall] at h
    cases h
  rw [if_neg hsmall] at h
  by_cases hlarge : 0 < offset ∧ (size : ℤ) ≤ offset
  · rw [if_pos hlarge] at h
    cases h
  rw [if_neg hlarge] at h
  obtain rfl := Except.ok.inj h
  dsimp only
  constructor
  · split_ifs <;> omega
  · split_ifs <;> omega

/-! ## Going through the index -/

section
variable {room offset limit : ℕ} {postings : ℕ → List ℕ}

/-- What is listed of a sequence of postings. -/
def listed (room offset limit : ℕ) (rids : List ℕ) : SortResult :=
  ⟨(rids.drop offset).take (min room limit), min rids.length (offset + min room limit)⟩

theorem length_listed (rids : List ℕ) :
    (listed room offset limit rids).ids.length = min (min room limit) (rids.length - offset) := by
  rw [listed, List.length_take, List.length_drop]

/-- Nothing is appended any more. -/
theorem listed_full {before : List ℕ} (hfull : offset + min room limit ≤ before.length) (rids : List ℕ) :
    listed room offset limit (before ++ rids) = listed room offset limit before := by
  rw [listed, listed, List.drop_append_of_le_length (by omega),
    List.take_append_of_le_length (by rw [List.length_drop]; omega), List.length_append]
  congr 1
  omega

/-- One posting more. -/
theorem listed_concat {before : List ℕ} (hroom : before.length < offset + min room limit) (rid : ℕ) :
    listed room offset limit (before ++ [rid]) =
      ⟨(listed room offset limit before).ids ++ (if offset ≤ before.length then [rid] else []),
        before.length + 1⟩ := by
  rw [listed, listed, List.length_append, List.length_singleton,
    Nat.min_eq_left (show before.length + 1 ≤ offset + min room limit by omega)]
  dsimp only
  congr 1
  split_ifs with hskip
  · rw [List.drop_append_of_le_length hskip, List.take_of_length_le (by simp; omega),
      List.take_of_length_le (by simp; omega)]
  · rw [List.append_nil, List.drop_of_length_le (by simp; omega), List.drop_of_length_le (by omega)]

/-- **The postings of a term** are listed behind those before. -/
theorem postingLoop_eq (before rids : List ℕ) :
    postingLoop room offset (offset + limit) rids (listed room offset limit before) =
      listed room offset limit (before ++ rids) := by
  induction rids generalizing before with
  | nil => rw [postingLoop, List.append_nil]
  | cons rid rids ih =>
    have hcount : (listed room offset limit before).nSortedRecords =
        min before.length (offset + min room limit) := rfl
    rw [postingLoop, length_listed, hcount]
    rcases Nat.lt_or_ge before.length (offset + min room limit) with hroom | hfull
    · have hnext := @listed_concat room offset limit before hroom rid
      have hrest := ih (before ++ [rid])
      rw [List.append_assoc, List.singleton_append] at hrest
      rw [← hrest, hnext, if_pos (by omega), Nat.min_eq_left hroom.le]
      by_cases hskip : offset ≤ before.length
      · rw [if_pos hskip, if_pos (by omega), if_pos hskip]
      · rw [if_neg hskip, if_neg hskip, List.append_nil]
    · rw [listed_full hfull]
      split_ifs
      · omega
      · rfl
      · omega
      · rfl

/-- **The postings of all terms** are listed. -/
theorem termLoop_eq (before tids : List ℕ) :
    termLoop postings room offset (offset + limit) tids (listed room offset limit before) =
      listed room offset limit (before ++ tids.flatMap postings) := by
  induction tids generalizing before with
  | nil => rw [termLoop, List.flatMap_nil, List.append_nil]
  | cons tid tids ih =>
    rw [termLoop, postingLoop_eq, ih, List.flatMap_cons, List.append_assoc]
    split_ifs with hgo
    · rfl
    · have hcount : (listed room offset limit before).nSortedRecords =
          min before.length (offset + min room limit) := rfl
      rw [hcount] at hgo
      exact (listed_full (by omega) _).symm

end

/-! ## The two ways -/

/-- **The index is complete**: each record has one posting, at the term that is its value. -/
structure ColumnIndex.Complete (index : ColumnIndex) (t : SortedTable) : Prop where
  nodup : ∀ tid, (index.postings tid).Nodup
  posting : ∀ key tid, LiveKey index.lexicon key tid →
    ∀ rid, rid ∈ index.postings tid ↔ rid ∈ t.ids ∧ lexiconKey t.bigEndian t.type (t.value rid) = key
  term : ∀ rid ∈ t.ids, ∃ tid, LiveKey index.lexicon (lexiconKey t.bigEndian t.type (t.value rid)) tid

/-- The values are those of a column: integers of one size. -/
structure SortedTable.HasColumn (t : SortedTable) : Prop where
  nodup : t.ids.Nodup
  size : ∀ rid ∈ t.ids, t.type.HasSize (t.value rid).length
  same : t.type ≠ .text → ∀ rid ∈ t.ids, ∀ rid' ∈ t.ids, (t.value rid).length = (t.value rid').length

/-- **The two ways agree**: the same values are listed, as many records are appended, and the same
number is returned. -/
def PathsAgree (t : SortedTable) (index : ColumnIndex) (room : ℕ) (offset limit : ℤ) : Prop :=
  ∃ byIndex byValue, grnTableSort t (some index) room offset limit = some byIndex ∧
    grnTableSort t none room offset limit = some byValue ∧
    byIndex.ids.map t.value = byValue.ids.map t.value ∧ byIndex.ids.length = byValue.ids.length ∧
    byIndex.nSortedRecords = byValue.nSortedRecords

variable {t : SortedTable} {index : ColumnIndex}

/-- What the records are compared by. -/
def SortedTable.greater (t : SortedTable) (a b : ℕ) : Bool :=
  sortValueCompare t.bigEndian t.type t.descending (t.value a) (t.value b)

theorem SortedTable.HasColumn.greater_iff (ht : t.HasColumn) {a b : ℕ} (ha : a ∈ t.ids) (hb : b ∈ t.ids) :
    t.greater a b = true ↔ if t.descending then
      lexiconKey t.bigEndian t.type (t.value a) < lexiconKey t.bigEndian t.type (t.value b)
      else lexiconKey t.bigEndian t.type (t.value b) < lexiconKey t.bigEndian t.type (t.value a) := by
  rw [greater, sortValueCompare]
  split_ifs
  · exact valueGreater_iff (ht.size b hb) fun htype => ht.same htype b hb a ha
  · exact valueGreater_iff (ht.size a ha) fun htype => ht.same htype a ha b hb

/-- Tied records have the same value. -/
theorem SortedTable.HasColumn.value_eq (ht : t.HasColumn) {a b : ℕ} (ha : a ∈ t.ids) (hb : b ∈ t.ids)
    (hab : t.greater a b = false) (hba : t.greater b a = false) : t.value a = t.value b := by
  refine @lexiconKey_injective t.bigEndian t.type _ _ (ht.size a ha) (ht.size b hb) ?_
  rw [← Bool.not_eq_true, ht.greater_iff ha hb] at hab
  rw [← Bool.not_eq_true, ht.greater_iff hb ha] at hba
  cases hdesc : t.descending
  · rw [hdesc] at hab hba
    exact List.le_antisymm (List.not_lt.mp hab) (List.not_lt.mp hba)
  · rw [hdesc] at hab hba
    exact List.le_antisymm (List.not_lt.mp hba) (List.not_lt.mp hab)

/-- **The postings in the order of the terms** are the records in an order of their values. -/
theorem ColumnIndex.Complete.postings_spec (hindex : index.Complete t) (ht : t.HasColumn) {tids : List ℕ}
    (hmem : ∀ tid, tid ∈ tids ↔ ∃ key, LiveKey index.lexicon key tid)
    (hordered : tids.Pairwise (KeyBefore index.lexicon t.descending))
    (hkey : ∀ key tid, LiveKey index.lexicon key tid → index.lexicon.keyOf tid = key) :
    (tids.flatMap index.postings).Perm t.ids ∧
      (tids.flatMap index.postings).Pairwise fun a b => t.greater a b = false := by
  have hposting : ∀ tid ∈ tids, ∀ rid, rid ∈ index.postings tid ↔
      rid ∈ t.ids ∧ lexiconKey t.bigEndian t.type (t.value rid) = index.lexicon.keyOf tid := by
    intro tid htid rid
    obtain ⟨key, hlive⟩ := (hmem tid).mp htid
    rw [hkey key tid hlive]
    exact hindex.posting key tid hlive rid
  have hdistinct : ∀ {tid tid' : ℕ}, KeyBefore index.lexicon t.descending tid tid' →
      index.lexicon.keyOf tid ≠ index.lexicon.keyOf tid' := by
    intro tid tid' hbefore heq
    rw [KeyBefore, heq] at hbefore
    split_ifs at hbefore <;> exact List.lt_irrefl _ hbefore
  have hnodup : (tids.flatMap index.postings).Nodup := by
    rw [List.nodup_flatMap]
    refine ⟨fun tid _ => hindex.nodup tid, hordered.imp_of_mem fun htid htid' hbefore rid hrid hrid' => ?_⟩
    exact hdistinct hbefore (((hposting _ htid rid).mp hrid).2.symm.trans ((hposting _ htid' rid).mp hrid').2)
  refine ⟨(List.perm_ext_iff_of_nodup hnodup ht.nodup).mpr fun rid => ?_, ?_⟩
  · rw [List.mem_flatMap]
    constructor
    · rintro ⟨tid, htid, hrid⟩
      exact ((hposting tid htid rid).mp hrid).1
    · intro hrid
      obtain ⟨tid, hlive⟩ := hindex.term rid hrid
      have htid := (hmem tid).mpr ⟨_, hlive⟩
      exact ⟨tid, htid, (hposting tid htid rid).mpr ⟨hrid, (hkey _ tid hlive).symm⟩⟩
  · rw [List.pairwise_flatMap]
    refine ⟨fun tid htid => ?_, hordered.imp_of_mem fun htid htid' hbefore a ha b hb => ?_⟩
    · refine (hindex.nodup tid).imp_of_mem fun ha hb _ => ?_
      obtain ⟨ha, hka⟩ := (hposting tid htid _).mp ha
      obtain ⟨hb, hkb⟩ := (hposting tid htid _).mp hb
      rw [← Bool.not_eq_true, ht.greater_iff ha hb, hka, hkb]
      split_ifs <;> exact List.lt_irrefl _
    · obtain ⟨ha, hka⟩ := (hposting _ htid _).mp ha
      obtain ⟨hb, hkb⟩ := (hposting _ htid' _).mp hb
      rw [← Bool.not_eq_true, ht.greater_iff ha hb, hka, hkb]
      rw [KeyBefore] at hbefore
      split_ifs at hbefore ⊢
      · exact List.lt_asymm hbefore
      · exact List.lt_asymm hbefore

/-- **The values in the range** do not depend on how the records are sorted. -/
theorem SortedTable.HasColumn.values_eq (ht : t.HasColumn) {n offset limit : ℕ} {a : ℕ → ℕ} {rids : List ℕ}
    (hn : t.ids.length = n) (hle : offset + limit ≤ n) (hrids : rids.Perm t.ids)
    (hordered : rids.Pairwise fun a b => t.greater a b = false)
    (hperm : ((List.range n).map a).Perm t.ids)
    (hsorted : ∀ i j, i < j → j < n → (offset ≤ i ∧ i < offset + limit ∨ offset ≤ j ∧ j < offset + limit) →
      t.greater (a i) (a j) = false) :
    ((rids.drop offset).take limit).map t.value = ((List.range limit).map fun i => a (offset + i)).map t.value := by
  have hlength : rids.length = n := hrids.length_eq.trans hn
  have hlist : (List.range n).map (fun i => rids.getD i 0) = rids := by
    refine List.ext_getElem (by rw [List.length_map, List.length_range, hlength]) fun i h₁ h₂ => ?_
    rw [List.getElem_map, List.getElem_range, List.getD_eq_getElem _ _ h₂]
  refine List.ext_getElem (by simp; omega) fun i h₁ h₂ => ?_
  have hi : i < limit := by simpa using h₂
  have hgt : StrictWeak t.greater :=
    (strictWeak_sortValueCompare t.bigEndian t.type t.descending).comap t.value
  have htied := @tied_of_sorted ℕ t.greater a (fun i => rids.getD i 0) n (offset + i) hgt
    (hperm.trans (hrids.symm.trans (.of_eq hlist.symm)))
    (fun j k hjk hk => by
      have hj : j < rids.length := by omega
      have hk : k < rids.length := by omega
      rw [List.getD_eq_getElem _ _ hj, List.getD_eq_getElem _ _ hk]
      exact List.pairwise_iff_getElem.mp hordered j k hj hk hjk) (by omega)
    (fun j hj => hsorted j _ hj (by omega) (.inr (by omega)))
    (fun j hj hjn => hsorted _ j hj hjn (.inl (by omega)))
  have hin : offset + i < rids.length := by omega
  have ha : a (offset + i) ∈ t.ids :=
    hperm.mem_iff.mp (List.mem_map_of_mem (List.mem_range.mpr (by omega)))
  have hb : rids.getD (offset + i) 0 ∈ t.ids := by
    rw [List.getD_eq_getElem _ _ hin]
    exact hrids.mem_iff.mp (List.getElem_mem hin)
  have hvalue := ht.value_eq ha hb htied.1 htied.2
  rw [List.getD_eq_getElem _ _ hin] at hvalue
  simp only [List.getElem_map, List.getElem_take, List.getElem_drop, List.getElem_range]
  exact hvalue.symm

/-- The value path sorts the entries of the table. -/
theorem SortedTable.HasColumn.sortValueEntries_spec (t : SortedTable) {n : ℕ} (hn : t.ids.length = n + 1)
    (offset limit : ℕ) : ∃ a, sortValueEntries t.greater (n + 1) offset limit (fun i => t.ids.getD i 0) = some a ∧
      ((List.range (n + 1)).map a).Perm t.ids ∧
      ∀ i j, i < j → j < n + 1 → (offset ≤ i ∧ i < offset + limit ∨ offset ≤ j ∧ j < offset + limit) →
        t.greater (a i) (a j) = false := by
  have hgt : StrictWeak t.greater :=
    (strictWeak_sortValueCompare t.bigEndian t.type t.descending).comap t.value
  obtain ⟨a, heq, hperm, hsorted⟩ := @Sort.sortValueEntries_spec ℕ t.greater n hgt offset limit
    fun i => t.ids.getD i 0
  refine ⟨a, heq, hperm.trans (.of_eq ?_), hsorted⟩
  refine List.ext_getElem (by rw [List.length_map, List.length_range, hn]) fun i h₁ h₂ => ?_
  rw [List.getElem_map, List.getElem_range, List.getD_eq_getElem _ _ h₂]

/-- **What the two ways give** for a range: the same values, and as many records. With an index
the skipped records are counted, too. -/
theorem ColumnIndex.Complete.paths_spec (hindex : index.Complete t) (ht : t.HasColumn)
    (hlexicon : ∃ t' own free lost, Inv index.lexicon t' own free lost) {room : ℕ} {offset limit : ℤ}
    {range : ℕ × ℕ} (hrange : grnOutputRangeNormalize t.ids.length offset limit = .ok range) :
    ∃ byIndex byValue, grnTableSort t (some index) room offset limit = some byIndex ∧
      grnTableSort t none room offset limit = some byValue ∧
      byIndex.ids.map t.value = byValue.ids.map t.value ∧ byIndex.ids.length = byValue.ids.length ∧
      byIndex.nSortedRecords = range.1 + byIndex.ids.length ∧
      byValue.nSortedRecords = byValue.ids.length := by
  obtain ⟨hle, -⟩ := grnOutputRangeNormalize_spec hrange
  obtain ⟨trie, own, free, lost, hinv⟩ := hlexicon
  obtain ⟨tids, hmem, hordered, hcursor⟩ := @Inv.listsRange index.lexicon trie own free lost t.descending [] []
    false false hinv 0 (-1) (fun h => absurd rfl h) (fun h => absurd rfl h) (.inl (by cases t.descending <;> rfl))
  have hcursor : rangeCursorIds index.lexicon [] [] 0 (-1) false false t.descending = some tids := hcursor
  obtain ⟨hrids, hpairwise⟩ := hindex.postings_spec ht
    (fun tid => (hmem tid).trans ⟨fun h => h.imp fun _ h => h.1, fun h => h.imp fun _ h =>
      ⟨h, .inl rfl, .inl rfl⟩⟩) hordered fun key tid hlive => (hinv.liveKey_iff.mp hlive).2
  have hlength : (tids.flatMap index.postings).length = t.ids.length := hrids.length_eq
  have hbyIndex : grnTableSort t (some index) room offset limit =
      some (listed room range.1 range.2 (tids.flatMap index.postings)) := by
    have hterms := @termLoop_eq room range.1 range.2 index.postings [] tids
    have hnone : listed room range.1 range.2 [] = ⟨[], 0⟩ := by simp [listed]
    rw [hnone, List.nil_append] at hterms
    simp only [grnTableSort, hrange, grnTableSortIndex, hcursor, Option.map_some, hterms]
  have hcount : (listed room range.1 range.2 (tids.flatMap index.postings)).nSortedRecords =
      range.1 + (listed room range.1 range.2 (tids.flatMap index.postings)).ids.length := by
    rw [length_listed, listed]
    dsimp only
    omega
  by_cases hzero : range.1 + range.2 = 0
  · -- nothing is wanted
    refine ⟨_, ⟨[], 0⟩, hbyIndex, ?_, ?_, ?_, hcount, rfl⟩
    · simp only [grnTableSort, hrange, if_pos hzero]
    · have hnil : (listed room range.1 range.2 (tids.flatMap index.postings)).ids = [] :=
        List.length_eq_zero_iff.mp (by rw [length_listed]; omega)
      rw [hnil]
    · rw [length_listed]
      exact (by omega : min (min room range.2) _ = 0)
  · obtain ⟨n, hn⟩ := Nat.exists_eq_succ_of_ne_zero (show t.ids.length ≠ 0 by omega)
    obtain ⟨a, heq, hperm, hsorted⟩ := SortedTable.HasColumn.sortValueEntries_spec t hn range.1 range.2
    have hvalues := ht.values_eq hn (hn ▸ hle) hrids hpairwise hperm hsorted
    have hbody : grnTableSortValueBody t room range.1 range.2 =
        some ⟨((List.range range.2).map fun i => a (range.1 + i)).take room,
          (((List.range range.2).map fun i => a (range.1 + i)).take room).length⟩ := by
      have heq' : sortValueEntries (fun a b => sortValueCompare t.bigEndian t.type t.descending (t.value a)
          (t.value b)) t.ids.length range.1 range.2 (fun i => t.ids.getD i 0) = some a := hn ▸ heq
      rw [grnTableSortValueBody]
      simp only [heq', Option.map_some]
      rw [Nat.min_eq_left (show range.2 ≤ t.ids.length - range.1 by omega)]
    refine ⟨_, ⟨((List.range range.2).map fun i => a (range.1 + i)).take room,
      (((List.range range.2).map fun i => a (range.1 + i)).take room).length⟩, hbyIndex, ?_, ?_, ?_,
      hcount, rfl⟩
    · simp only [grnTableSort, hrange, if_neg hzero, hbody]
    · have htake := congrArg (List.take room) hvalues
      rw [← List.map_take, ← List.map_take, List.take_take] at htake
      exact htake
    · rw [length_listed, hlength]
      simp only [List.length_take, List.length_map, List.length_range]
      omega

/-- **Sorting with an index agrees with sorting without one** exactly for the ranges that begin at
the first record. -/
theorem pathsAgree_iff (isKeyLarge : Bool) (cacheSize : ℕ) (ops : List Op) (postings : ℕ → List ℕ)
    (t : SortedTable) (room : ℕ) (offset limit : ℤ) (range : ℕ × ℕ) (ht : t.HasColumn)
    (hindex : (⟨runOps (grnPatCreate isKeyLarge cacheSize) ops, postings⟩ : ColumnIndex).Complete t)
    (hrange : grnOutputRangeNormalize t.ids.length offset limit = .ok range) :
    PathsAgree t ⟨runOps (grnPatCreate isKeyLarge cacheSize) ops, postings⟩ room offset limit ↔
      offset = 0 ∨ offset < 0 ∧ offset + t.ids.length ≤ 0 := by
  rw [← (grnOutputRangeNormalize_spec hrange).2]
  obtain ⟨byIndex, byValue, hbyIndex, hbyValue, hvalues, hlength, hcount, hcount'⟩ :=
    hindex.paths_spec ht ((inv_grnPatCreate isKeyLarge cacheSize).runOps ops) hrange
  constructor
  · rintro ⟨i, v, hi, hv, -, -, hsame⟩
    obtain rfl := Option.some.inj (hbyIndex.symm.trans hi)
    obtain rfl := Option.some.inj (hbyValue.symm.trans hv)
    omega
  · intro hstart
    exact ⟨byIndex, byValue, hbyIndex, hbyValue, hvalues, hlength, by omega⟩

/-! ## A table with two texts -/

/-- Two records with the values "b" and "a". -/
def twoTexts : SortedTable := ⟨[1, 2], fun id => if id = 1 then [98] else [97], .text, false, false⟩

/-- The operations that make the lexicon: the terms "b" and "a". -/
def twoTerms : List Op := [.call (.add [98]), .call (.add [97])]

/-- The posting of a term is the record of the same number. -/
def twoPostings (tid : ℕ) : List ℕ := if tid = 1 then [1] else if tid = 2 then [2] else []

theorem hasColumn_twoTexts : twoTexts.HasColumn :=
  ⟨by decide, fun _ _ => trivial, fun htype => absurd rfl htype⟩

theorem complete_twoTexts :
    (⟨runOps (grnPatCreate false 0) twoTerms, twoPostings⟩ : ColumnIndex).Complete twoTexts := by
  refine ⟨fun tid => ?_, fun key tid hlive rid => ?_, fun rid hrid => ?_⟩
  · simp only [twoPostings]
    split_ifs <;> simp
  · obtain ⟨t, own, free, lost, hinv⟩ := (inv_grnPatCreate false 0).runOps twoTerms
    obtain ⟨hleaf, hkey⟩ := hinv.liveKey_iff.mp hlive
    obtain ⟨hpos, hle⟩ := hinv.range (Trie.mem_ids.mpr (.inr hleaf))
    have hcurr : (runOps (grnPatCreate false 0) twoTerms).currRec = 2 := by decide +kernel
    have hkeys : (runOps (grnPatCreate false 0) twoTerms).keyOf 1 = [98] ∧
        (runOps (grnPatCreate false 0) twoTerms).keyOf 2 = [97] := by decide +kernel
    rw [hcurr] at hle
    obtain rfl | rfl : tid = 1 ∨ tid = 2 := by omega
    · obtain rfl : [98] = key := hkeys.1.symm.trans hkey
      by_cases hone : rid = 1 <;> simp [twoPostings, twoTexts, lexiconKey, hone]
    · obtain rfl : [97] = key := hkeys.2.symm.trans hkey
      by_cases hone : rid = 1 <;> simp [twoPostings, twoTexts, lexiconKey, hone]
  · have hget : grnPatGet (runOps (grnPatCreate false 0) twoTerms) [98] = some 1 ∧
        grnPatGet (runOps (grnPatCreate false 0) twoTerms) [97] = some 2 := by decide +kernel
    have hrid : rid = 1 ∨ rid = 2 := by simpa [twoTexts] using hrid
    rcases hrid with rfl | rfl
    · exact ⟨1, by decide, hget.1⟩
    · exact ⟨2, by decide, hget.2⟩

theorem pathsAgree_iff_twoTexts :
    PathsAgree twoTexts ⟨runOps (grnPatCreate false 0) twoTerms, twoPostings⟩ 10 0 (-1) ↔
      (0 : ℤ) = 0 ∨ (0 : ℤ) < 0 ∧ (0 : ℤ) + 2 ≤ 0 :=
  pathsAgree_iff false 0 twoTerms twoPostings twoTexts 10 0 (-1) (0, 2) hasColumn_twoTexts complete_twoTexts
    rfl

/-- Of two records, the second one is wanted: with the index, 2 is returned. -/
theorem not_pathsAgree_second :
    ¬ ∀ (isKeyLarge : Bool) (cacheSize : ℕ) (ops : List Op) (postings : ℕ → List ℕ) (t : SortedTable)
      (room : ℕ) (offset limit : ℤ) (range : ℕ × ℕ), t.HasColumn →
      (⟨runOps (grnPatCreate isKeyLarge cacheSize) ops, postings⟩ : ColumnIndex).Complete t →
      grnOutputRangeNormalize t.ids.length offset limit = .ok range →
      PathsAgree t ⟨runOps (grnPatCreate isKeyLarge cacheSize) ops, postings⟩ room offset limit := by
  intro h
  obtain ⟨i, v, hi, hv, -, -, hsame⟩ := h false 0 twoTerms twoPostings twoTexts 10 1 1 (1, 1)
    hasColumn_twoTexts complete_twoTexts rfl
  have hi' : grnTableSort twoTexts (some ⟨runOps (grnPatCreate false 0) twoTerms, twoPostings⟩) 10 1 1 =
      some ⟨[1], 2⟩ := by decide +kernel
  have hv' : grnTableSort twoTexts none 10 1 1 = some ⟨[1], 1⟩ := by decide +kernel
  obtain rfl := Option.some.inj (hi'.symm.trans hi)
  obtain rfl := Option.some.inj (hv'.symm.trans hv)
  exact absurd hsame (by decide)

end Groonga.Sort
