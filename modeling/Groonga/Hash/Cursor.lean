import Groonga.Hash.Map
import Groonga.Table.Tiny
import Mathlib

/-!
# Cursors of hashes

A cursor of a hash gives the live entries between the ids of two keys, as a cursor of a table without
keys does. The entries to skip are looked up one by one when an id is not live. Otherwise the position
is just moved by their number, also beyond the last entry.
-/

namespace Groonga.Hash

open Lib Table

/-! ## The cursor -/

/-- `grn_hash_cursor`. -/
structure HashCursor where
  currRec : ℕ
  tail : ℕ
  rest : ℕ
  descending : Bool
deriving DecidableEq, Repr

/-- The limits of a cursor: the keys `min` and `max`, `offset`, `limit` and the flags. -/
structure HashCursorArgs where
  min : Option (List UInt8)
  max : Option (List UInt8)
  offset : ℤ
  limit : ℤ
  descending : Bool
  gt : Bool
  lt : Bool
deriving DecidableEq, Repr

/-- The id of a bound, 0 if there is no such key. The second is nothing without a bound. -/
def hashCursorBound (g : Config) (s : GrnHash) : Option (List UInt8) → Option (Option ℕ)
  | none => some none
  | some key => (hashGet g s key).map some

/-- `c->curr_rec` and `c->tail` before entries are skipped. -/
def hashCursorRange (s : GrnHash) (a : HashCursorArgs) (min max : Option ℕ) : ℕ × ℕ :=
  if a.descending then
    let currRec := max.elim (s.currRec + 1) fun id => if a.lt then id else id + 1
    let tail := min.elim 1 fun id => if a.gt then id + 1 else id
    (currRec, if currRec < tail then currRec else tail)
  else
    let currRec := min.elim 0 fun id => if a.gt then id else id - 1
    let tail := max.elim s.currRec fun id => if a.lt then id - 1 else id
    (currRec, if tail < currRec then currRec else tail)

/-- Entries are skipped. -/
def hashCursorSkip (s : GrnHash) (a : HashCursorArgs) (currRec tail : ℕ) : ℕ :=
  if s.nEntries ≠ s.currRec then
    skipTo s.bitmap (shift 0x100000000 a.descending) tail 0x100000000 a.offset currRec
  else toUint32 (currRec + cursorDir a.descending * a.offset)

/-- `grn_hash_cursor_open`. The bound where the cursor starts is looked up first. A cursor whose
bound is no key is at its end. -/
def hashCursorOpen (g : Config) (s : GrnHash) (a : HashCursorArgs) : Option HashCursor :=
  let rest := if a.limit < 0 then arrayMax else a.limit.toNat
  let empty : HashCursor := ⟨0, 0, rest, a.descending⟩
  (hashCursorBound g s (if a.descending then a.max else a.min)).bind fun first =>
    if first = some 0 then some empty
    else
      (hashCursorBound g s (if a.descending then a.min else a.max)).map fun last =>
        if last = some 0 then empty
        else
          let r := if a.descending then hashCursorRange s a last first else hashCursorRange s a first last
          ⟨hashCursorSkip s a r.1 r.2, r.2, rest, a.descending⟩

/-- The entries that the loop does not pass over. -/
def GrnHash.seen (s : GrnHash) (id : ℕ) : Bool := decide (s.nEntries = s.currRec) || s.bitmap id

/-- `grn_hash_cursor_next`. -/
def hashCursorNext (s : GrnHash) (c : HashCursor) : ℕ × HashCursor :=
  if c.rest = 0 then (0, c)
  else
    let r := nextTo s.seen (shift 0x100000000 c.descending) c.tail 0x100000000 c.currRec
    if r.1 then (r.2, { c with currRec := r.2, rest := c.rest - 1 }) else (0, { c with currRec := r.2 })

/-! ## The promise -/

/-- The id of a bound, nil without one. -/
def IsBound (g : Config) (s : GrnHash) : Option (List UInt8) → ℕ → Prop
  | none, id => id = 0
  | some key, id => s.bitmap id = true ∧ s.getKey g id = key

/-- The bounds of a cursor, as ids. -/
def HashCursorArgs.bounds (a : HashCursorArgs) (min max : ℕ) : Bounds := ⟨min, max, a.descending, a.gt, a.lt⟩

/-- **The cursor obeys** its bounds, its offset and its limit. -/
def HashCursorObeys (g : Config) (s : GrnHash) (a : HashCursorArgs) (min max : ℕ) : Prop :=
  ∃ c, hashCursorOpen g s a = some c ∧ (a.bounds min max).Obeys s.currRec s.bitmap a.offset a.limit
    (hashCursorNext s) HashCursor.currRec c

variable {g : Config} {s : GrnHash} {a : HashCursorArgs} {key : Option (List UInt8)} {id min max : ℕ}

/-! ## Bounds -/

/-- The bound as the cursor knows it. -/
def boundOf (key : Option (List UInt8)) (id : ℕ) : Option ℕ := key.map fun _ => id

theorem IsBound.elim_eq (hb : IsBound g s key id) (hI : Inv g s) (d : ℕ) (f : ℕ → ℕ) :
    (boundOf key id).elim d f = if id ≠ 0 then f id else d := by
  cases key with
  | none =>
    obtain rfl : id = 0 := hb
    rfl
  | some k => exact (if_pos (Nat.ne_of_gt (hI.keys.ids id hb.1).1)).symm

/-- **Looking for the key of a bound** gives its id. -/
theorem IsBound.hashCursorBound_eq (hb : IsBound g s key id) (hI : Inv g s) :
    hashCursorBound g s key = some (boundOf key id) ∧ boundOf key id ≠ some 0 ∧ id ≤ s.currRec := by
  cases key with
  | none =>
    obtain rfl : id = 0 := hb
    exact ⟨rfl, (Option.some_ne_none 0).symm, Nat.zero_le _⟩
  | some key =>
    obtain ⟨hlive, hkey⟩ := hb
    obtain ⟨hpos, hle⟩ := hI.keys.ids id hlive
    obtain ⟨id', heq, hid'⟩ := hashGet_spec hI key
    have hsame : id' = id := by
      rcases hid' with ⟨-, hnone⟩ | ⟨hlive', hkey'⟩
      · exact absurd hkey (hnone id hlive)
      · exact hI.keys.inj id' id hlive' hlive (hkey'.trans hkey.symm)
    refine ⟨?_, fun h => Nat.ne_of_gt hpos (Option.some.inj h), hle⟩
    rw [hashCursorBound, heq, hsame]
    rfl

/-- Where the cursor starts. -/
theorem hashCursorRange_eq (hmin : IsBound g s a.min min) (hmax : IsBound g s a.max max) (hI : Inv g s) :
    hashCursorRange s a (boundOf a.min min) (boundOf a.max max) =
      ((a.bounds min max).start s.currRec, (a.bounds min max).stop s.currRec) := by
  rw [hashCursorRange, HashCursorArgs.bounds, Bounds.start, Bounds.stop, Bounds.start]
  simp only [hmin.elim_eq hI, hmax.elim_eq hI]
  cases a.descending with
  | false =>
    simp only [Bool.false_eq_true, if_false, Prod.mk.injEq, true_and]
    split_ifs <;> omega
  | true =>
    simp only [if_true, Prod.mk.injEq, true_and]
    split_ifs <;> omega

/-! ## The calls -/

/-- **No entry is missing** when as many entries are counted as ids were handed out. -/
theorem Inv.bitmap_of_full (hI : Inv g s) (hfull : s.nEntries = s.currRec) (hpos : 0 < id) (hle : id ≤ s.currRec) :
    s.bitmap id = true := by
  have hsub : {id | s.bitmap id = true} ⊆ ↑(Finset.Icc 1 s.currRec) := fun i hi =>
    Finset.mem_coe.mpr (Finset.mem_Icc.mpr (hI.keys.ids i hi))
  have hcard : ({id | s.bitmap id = true} : Set ℕ).ncard = (↑(Finset.Icc 1 s.currRec) : Set ℕ).ncard := by
    rw [← hI.nEntries_eq, hfull, Set.ncard_coe_finset, Nat.card_Icc]
    omega
  have heq := Set.eq_of_subset_of_ncard_le hsub (Nat.le_of_eq hcard.symm) (Finset.finite_toSet _)
  have hmem : id ∈ (↑(Finset.Icc 1 s.currRec) : Set ℕ) := Finset.mem_coe.mpr (Finset.mem_Icc.mpr ⟨hpos, hle⟩)
  rw [← heq] at hmem
  exact hmem

/-- What the loops see of the ids within the bounds is what is live. -/
theorem Inv.filter_seen (hI : Inv g s) (b : Bounds) :
    (b.ids s.currRec).filter s.seen = (b.ids s.currRec).filter s.bitmap := by
  apply List.filter_congr
  intro id hid
  obtain ⟨hpos, hle⟩ := (Bounds.mem_ids.mp hid).1
  rw [GrnHash.seen]
  by_cases hfull : s.nEntries = s.currRec
  · rw [decide_eq_true hfull, Bool.true_or, hI.bitmap_of_full hfull hpos hle]
  · rw [decide_eq_false hfull, Bool.false_or]

/-- No more ids are live than entries are counted. -/
theorem Inv.length_live_le (hI : Inv g s) (b : Bounds) :
    ((b.ids s.currRec).filter s.bitmap).length ≤ s.nEntries := by
  have hnodup : ((b.ids s.currRec).filter s.bitmap).Nodup := (b.nodup_ids _).filter _
  have hfinite : {id | s.bitmap id = true}.Finite :=
    (Finset.finite_toSet (Finset.Icc 1 s.currRec)).subset fun i hi =>
      Finset.mem_coe.mpr (Finset.mem_Icc.mpr (hI.keys.ids i hi))
  rw [hI.nEntries_eq, ← List.toFinset_card_of_nodup hnodup, ← Set.ncard_coe_finset]
  refine Set.ncard_le_ncard (fun id hid => ?_) hfinite
  rw [Finset.mem_coe, List.mem_toFinset, List.mem_filter] at hid
  exact hid.2

/-- A cursor as a scan. -/
def HashCursor.scan (c : HashCursor) : Scan := ⟨c.currRec, c.tail, c.rest, c.descending⟩

/-- **A call** is a step of the scan. -/
theorem scan_hashCursorNext (s : GrnHash) (c : HashCursor) :
    c.scan.next 0x100000000 s.seen 0x100000000 = ((hashCursorNext s c).1, (hashCursorNext s c).2.scan) := by
  rcases c with ⟨currRec, tail, rest, descending⟩
  rw [hashCursorNext, Scan.next, HashCursor.scan]
  by_cases hrest : rest = 0
  · simp only [if_pos hrest]
    rfl
  · simp only [if_neg hrest]
    split_ifs
    · rfl
    · rfl

/-- **The cursor is opened as a scan.** -/
theorem opened_hashCursorOpen (hI : Inv g s) (hmin : IsBound g s a.min min) (hmax : IsBound g s a.max max) :
    ∃ c, hashCursorOpen g s a = some c ∧ c.scan.Opened 0x100000000 (a.bounds min max) s.currRec
      (decide (s.nEntries ≠ s.currRec)) s.seen a.offset a.limit := by
  have hrange := hashCursorRange_eq hmin hmax hI
  obtain ⟨hminEq, hminNe, -⟩ := hmin.hashCursorBound_eq hI
  obtain ⟨hmaxEq, hmaxNe, -⟩ := hmax.hashCursorBound_eq hI
  refine ⟨⟨hashCursorSkip s a ((a.bounds min max).start s.currRec) ((a.bounds min max).stop s.currRec),
    (a.bounds min max).stop s.currRec, if a.limit < 0 then arrayMax else a.limit.toNat, a.descending⟩, ?_,
    rfl, rfl, ?_, fun hholes => ?_, fun hfull => ?_⟩
  · rw [hashCursorOpen]
    cases hd : a.descending with
    | false =>
      simp only [Bool.false_eq_true, if_false, hminEq, Option.bind_some, if_neg hminNe, hmaxEq, Option.map_some,
        if_neg hmaxNe, hrange]
    | true =>
      simp only [if_true, hmaxEq, Option.bind_some, if_neg hmaxNe, hminEq, Option.map_some, if_neg hminNe, hrange]
  · simp only [HashCursor.scan]
    split_ifs with hneg
    · refine .inr ⟨hneg, ?_⟩
      have hle := hI.length_live_le (a.bounds min max)
      have hmany := hI.table.nEntries_le
      rw [hI.filter_seen, arrayMax]
      omega
    · exact .inl ⟨Int.not_lt.mp hneg, rfl⟩
  · have hholes' := of_decide_eq_true hholes
    have hsame : s.seen = s.bitmap := by
      funext id
      rw [GrnHash.seen, decide_eq_false hholes', Bool.false_or]
    simp only [HashCursor.scan, hashCursorSkip, if_pos hholes', hsame]
    rfl
  · simp only [HashCursor.scan, hashCursorSkip, if_neg (of_decide_eq_false hfull)]
    rfl

/-- **The cursor obeys exactly** when an id is not live, or when the offset is not larger than the
number of live entries in the interval. -/
theorem hashCursorObeys_iff (hI : Inv g s) (hmin : IsBound g s a.min min) (hmax : IsBound g s a.max max)
    (hoffset : 0 ≤ a.offset) (hint : a.offset < 0x80000000) : HashCursorObeys g s a min max ↔
      s.nEntries ≠ s.currRec ∨ a.offset ≤ (((a.bounds min max).ids s.currRec).filter s.bitmap).length := by
  obtain ⟨c, hopen, hopened⟩ := opened_hashCursorOpen hI hmin hmax
  have hle := hI.currRec_le
  rw [idMax] at hle
  have hiff := hopened.obeys_iff (hmin.hashCursorBound_eq hI).2.2 (hmax.hashCursorBound_eq hI).2.2 hoffset
    (by push_cast; omega) (fun hfull id => by
      rw [GrnHash.seen, decide_eq_true (not_not.mp (of_decide_eq_false hfull)), Bool.true_or])
  rw [hI.filter_seen, decide_eq_true_iff] at hiff
  have hcongr := Bounds.obeys_congr (hashCursorNext s) _ HashCursor.currRec Scan.curr a.offset a.limit HashCursor.scan
    (fun _ => True) (fun r _ => ⟨trivial, scan_hashCursorNext s r⟩) (fun _ => rfl)
    (hI.filter_seen (a.bounds min max)) (s := c) trivial
  rw [← hiff, hcongr]
  constructor
  · rintro ⟨c', hopen', hobeys⟩
    obtain rfl := Option.some.inj (hopen.symm.trans hopen')
    exact hobeys
  · exact fun hobeys => ⟨c, hopen, hobeys⟩

/-! ## Runs -/

/-- **The cursors of a hash**, after every run that has room for what it adds. -/
theorem hashCursorObeys_of_readies (g : Config) (ops : List Op) (hready : Readies g ops (hashCreate g)) :
    ∃ ids s, run g ops (hashCreate g) = some (ids, s) ∧
      ∀ a min max, IsBound g s a.min min → IsBound g s a.max max → 0 ≤ a.offset → a.offset < 0x80000000 →
        (HashCursorObeys g s a min max ↔ s.nEntries ≠ s.currRec ∨
          a.offset ≤ (((a.bounds min max).ids s.currRec).filter s.bitmap).length) := by
  obtain ⟨ids, s, heq, hI, -⟩ := run_spec ops (inv_hashCreate g) (models_hashCreate g) hready
  exact ⟨ids, s, heq, fun a min max hmin hmax hoffset hint => hashCursorObeys_iff hI hmin hmax hoffset hint⟩

/-- **The cursors of an array**, after every run whose reads are harmless. -/
theorem cursorObeys_of_readsHarmlessly (valueSize : ℕ) (ops : List ArrayOp)
    (hreads : (tablesCreate valueSize).ReadsHarmlessly ops) (a : CursorArgs) {s : GrnArray}
    (hs : s = ((tablesCreate valueSize).run ops).array) (hmin : a.min = 0 ∨ s.bits a.min = true)
    (hmax : a.max = 0 ∨ s.bits a.max = true) (hoffset : 0 ≤ a.offset) (hint : a.offset < 0x80000000) :
    s.CursorObeys a ↔ s.header.nGarbages ≠ 0 ∨
      a.offset ≤ ((a.bounds.ids s.header.currRec).filter s.bits).length := by
  rw [← List.append_nil ops] at hreads
  have hsound := ((follows_create valueSize).run hreads).1.sound
  have hmapped := mapped_run (mapped_create valueSize) ops
  rw [← hs] at hsound hmapped
  have hle : ∀ id, id = 0 ∨ s.bits id = true → id ≤ s.header.currRec := by
    rintro id (rfl | hid)
    · exact Nat.zero_le _
    · exact (hsound.live id hid).2
  exact GrnArray.cursorObeys_iff hsound hmapped (hle _ hmin) (hle _ hmax) hoffset hint

/-- **The cursors of an array in memory**, after every run whose ids are no larger than an id may be. -/
theorem cursorObeys_of_tiny (valueSize : ℕ) (ops : List TinyOp) (a : CursorArgs) {t : TinyArray}
    (ht : t = (tinyCreate valueSize).run ops) (hids : t.max ≤ arrayMax) (hmin : a.min = 0 ∨ t.bits a.min = true)
    (hmax : a.max = 0 ∨ t.bits a.max = true) (hoffset : 0 ≤ a.offset) (hint : a.offset < 0x80000000) :
    t.CursorObeys a ↔ t.nGarbages ≠ 0 ∨ a.offset ≤ ((a.bounds.ids t.max).filter t.bits).length := by
  have hsound := (sound_tinyCreate valueSize).run ops (by rw [← ht]; exact hids)
  rw [← ht] at hsound
  have hle : ∀ id, id = 0 ∨ t.bits id = true → id ≤ t.max := by
    rintro id (rfl | hid)
    · exact Nat.zero_le _
    · exact (hsound.live id hid).2
  exact hsound.cursorObeys_iff hids (hle _ hmin) (hle _ hmax) hoffset hint

end Groonga.Hash
