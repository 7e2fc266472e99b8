import Groonga.Table.Cursor
import Mathlib

/-!
# Tables without keys in memory

A `grn_array` without a file has its records in blocks of memory. The deleted records are linked by
their values when these have room for an id; otherwise they are forgotten. Reading a bit remembers
nothing. The cursor is the same as that of an array with a file.
-/

namespace Groonga.Table

open Lib

/-! ## The array -/

/-- `grn_array` with a `grn_tiny_array` and a `grn_tiny_bitmap`. -/
structure TinyArray where
  valueSize : ℕ
  max : ℕ
  nEntries : ℕ
  nGarbages : ℕ
  garbages : ℕ
  bits : ℕ → Bool
  values : ℕ → ℕ → UInt8

/-- `grn_array_init_tiny_array`. -/
def tinyCreate (valueSize : ℕ) : TinyArray := ⟨valueSize, 0, 0, 0, 0, fun _ => false, fun _ _ => 0⟩

/-- `grn_array_can_use_value_for_garbage`. -/
def TinyArray.canUseValueForGarbage (t : TinyArray) : Bool := decide (4 ≤ t.valueSize)

/-- `grn_array_add_to_tiny_array`. There may be no memory for a new record. -/
def TinyArray.add (t : TinyArray) (fails : Bool) : ℕ × TinyArray :=
  if t.garbages ≠ 0 then
    (t.garbages, { t with
      garbages := readNat (t.values t.garbages) 0 4
      bits := Function.update t.bits t.garbages true
      values := Function.update t.values t.garbages fun _ => 0
      nGarbages := decrement t.nGarbages
      nEntries := t.nEntries + 1 })
  else if fails then (0, t)
  else
    (t.max + 1, { t with
      max := t.max + 1
      bits := Function.update t.bits (t.max + 1) true
      nEntries := t.nEntries + 1 })

/-- `grn_array_delete_by_id`. -/
def TinyArray.deleteById (t : TinyArray) (id : ℕ) : Bool × TinyArray :=
  if t.bits id then
    let t :=
      if t.canUseValueForGarbage then
        { t with
          values := Function.update t.values id (writeNat (t.values id) 0 4 t.garbages)
          garbages := id }
      else t
    (true, { t with
      nEntries := t.nEntries - 1
      nGarbages := t.nGarbages + 1
      bits := Function.update t.bits id false })
  else (false, t)

/-- `grn_array_set_value` with `GRN_OBJ_SET`. -/
def TinyArray.setValue (t : TinyArray) (id : ℕ) (value : List UInt8) : TinyArray :=
  let put : TinyArray :=
    { t with values := Function.update t.values id (write (t.values id) 0 (value.take t.valueSize)) }
  if t.nGarbages ≠ 0 then
    if t.bits id then put else t
  else if id = 0 ∨ t.max < id then t
  else put

/-! ## Cursors -/

/-- `grn_array_cursor_open`. -/
def TinyArray.cursorOpen (t : TinyArray) (a : CursorArgs) : ArrayCursor :=
  let r := rangeOf t.max a
  let currRec :=
    if t.nGarbages ≠ 0 then skipTo t.bits (shift 0x100000000 a.descending) r.2 0x100000000 a.offset r.1
    else toUint32 (r.1 + cursorDir a.descending * a.offset)
  ⟨currRec, r.2, if a.limit < 0 then t.nEntries else a.limit.toNat, a.descending⟩

/-- The ids that the loop does not pass over. -/
def TinyArray.seen (t : TinyArray) (id : ℕ) : Bool := decide (t.nGarbages = 0) || t.bits id

/-- `grn_array_cursor_next`. -/
def TinyArray.cursorNext (t : TinyArray) (c : ArrayCursor) : ℕ × ArrayCursor :=
  if c.rest = 0 then (0, c)
  else
    let r := nextTo t.seen (shift 0x100000000 c.descending) c.tail 0x100000000 c.currRec
    if r.1 then (r.2, { c with currRec := r.2, rest := c.rest - 1 }) else (0, { c with currRec := r.2 })

/-- **The cursor obeys** its bounds, its offset and its limit. -/
def TinyArray.CursorObeys (t : TinyArray) (a : CursorArgs) : Prop :=
  a.bounds.Obeys t.max t.bits a.offset a.limit t.cursorNext ArrayCursor.currRec (t.cursorOpen a)

/-! ## Runs -/

/-- The calls that change an array in memory. -/
inductive TinyOp where
  | add (fails : Bool)
  | delete (id : ℕ)
  | setValue (id : ℕ) (value : List UInt8)
deriving DecidableEq, Repr

/-- A call. -/
def TinyArray.step (t : TinyArray) : TinyOp → TinyArray
  | .add fails => (t.add fails).2
  | .delete id => (t.deleteById id).2
  | .setValue id value => t.setValue id value

/-- The calls one after another. -/
def TinyArray.run (t : TinyArray) (ops : List TinyOp) : TinyArray := ops.foldl TinyArray.step t

/-! ## The invariant -/

/-- **The invariant**: the live records are counted, and the linked ones are deleted. -/
structure TinyArray.Sound (t : TinyArray) : Prop where
  live : ∀ id, t.bits id = true → 0 < id ∧ id ≤ t.max
  total : t.nEntries + t.nGarbages = t.max
  entries : t.nEntries = Set.ncard {id | t.bits id = true}
  unlinked : t.canUseValueForGarbage = false → t.garbages = 0
  free : ∃ ids, Chain (fun id => readNat (t.values id) 0 4) t.garbages ids ∧ ids.Nodup ∧
    ∀ id ∈ ids, 0 < id ∧ id ≤ t.max ∧ t.bits id = false

variable {t : TinyArray} {a : CursorArgs} {id : ℕ}

theorem TinyArray.Sound.finite (hs : t.Sound) : {id | t.bits id = true}.Finite :=
  (Finset.finite_toSet (Finset.Icc 1 t.max)).subset fun i hi =>
    Finset.mem_coe.mpr (Finset.mem_Icc.mpr (hs.live i hi))

theorem sound_tinyCreate (valueSize : ℕ) : (tinyCreate valueSize).Sound := by
  refine ⟨fun _ hid => absurd hid Bool.false_ne_true, rfl, ?_, fun _ => rfl, [], rfl, List.nodup_nil,
    fun _ hid => absurd hid List.not_mem_nil⟩
  have hempty : {id | (tinyCreate valueSize).bits id = true} = ∅ :=
    Set.eq_empty_iff_forall_notMem.mpr fun id hid => Bool.false_ne_true hid
  rw [hempty, Set.ncard_empty]
  rfl

/-- A dead record is counted. -/
theorem TinyArray.Sound.nGarbages_pos (hs : t.Sound) (hpos : 0 < id) (hle : id ≤ t.max)
    (hoff : t.bits id = false) : 0 < t.nGarbages := by
  have hsub : {i | t.bits i = true} ⊆ ↑((Finset.Icc 1 t.max).erase id) := by
    intro i hi
    have hne : i ≠ id := fun heq => Bool.false_ne_true (hoff.symm.trans (heq ▸ hi))
    exact Finset.mem_coe.mpr (Finset.mem_erase.mpr ⟨hne, Finset.mem_Icc.mpr (hs.live i hi)⟩)
  have hcard := Set.ncard_le_ncard hsub (Finset.finite_toSet _)
  rw [Set.ncard_coe_finset, Finset.card_erase_of_mem (Finset.mem_Icc.mpr ⟨hpos, hle⟩), Nat.card_Icc,
    ← hs.entries] at hcard
  have htotal := hs.total
  omega

/-- **A record gets live.** -/
theorem TinyArray.Sound.add (hs : t.Sound) (fails : Bool) : (t.add fails).2.Sound := by
  obtain ⟨ids, hchain, hnodup, hdead⟩ := hs.free
  have hinsert : ∀ i, t.bits i = false → Set.ncard {id | Function.update t.bits i true id = true} = t.nEntries + 1 := by
    intro i hi
    have hset : {id | Function.update t.bits i true id = true} = insert i {id | t.bits id = true} := by
      ext j
      rw [Set.mem_ofPred_eq, Set.mem_insert_iff, Set.mem_ofPred_eq, Function.update_apply]
      split_ifs with hj
      · exact iff_of_true rfl (.inl hj)
      · exact (or_iff_right hj).symm
    have hnot : i ∉ {id | t.bits id = true} := fun h => Bool.false_ne_true (hi.symm.trans h)
    rw [hset, Set.ncard_insert_of_notMem hnot hs.finite, ← hs.entries]
  have hlive : ∀ i m, 0 < i → i ≤ m → t.max ≤ m → ∀ id, Function.update t.bits i true id = true →
      0 < id ∧ id ≤ m := by
    intro i m hpos hle hmax id hid
    rw [Function.update_apply] at hid
    split_ifs at hid with heq
    · rw [heq]
      exact ⟨hpos, hle⟩
    · exact ⟨(hs.live id hid).1, (hs.live id hid).2.trans hmax⟩
  rw [TinyArray.add]
  split_ifs with hany hfails
  · obtain ⟨rest, rfl, hrest⟩ := hchain.pop hany
    obtain ⟨hpos, hle, hoff⟩ := hdead _ List.mem_cons_self
    obtain ⟨hnot, hnodup'⟩ := List.nodup_cons.mp hnodup
    have hgarbage := hs.nGarbages_pos hpos hle hoff
    refine ⟨hlive _ _ hpos hle (Nat.le_refl _), ?_, (hinsert _ hoff).symm,
      fun hsmall => absurd (hs.unlinked hsmall) hany, rest, ?_, hnodup', fun i hi => ?_⟩
    · have htotal := hs.total
      simp only [decrement_of_pos hgarbage]
      omega
    · refine hrest.congr fun i hi => ?_
      have hne : i ≠ t.garbages := fun heq => hnot (heq ▸ hi)
      exact congrArg (fun value => readNat value 0 4) (Function.update_of_ne hne _ _)
    · obtain ⟨hpos', hle', hoff'⟩ := hdead i (List.mem_cons_of_mem _ hi)
      have hne : i ≠ t.garbages := fun heq => hnot (heq ▸ hi)
      exact ⟨hpos', hle', (Function.update_of_ne hne _ _).trans hoff'⟩
  · exact hs
  · have hoff : t.bits (t.max + 1) = false := by
      by_contra hon
      have hle := (hs.live _ (Bool.not_eq_false _ ▸ hon)).2
      omega
    refine ⟨hlive _ _ (Nat.succ_pos _) (Nat.le_refl _) (Nat.le_succ _), ?_, (hinsert _ hoff).symm, hs.unlinked,
      ids, hchain, hnodup, fun i hi => ?_⟩
    · have htotal := hs.total
      show t.nEntries + 1 + t.nGarbages = t.max + 1
      omega
    · obtain ⟨hpos', hle', hoff'⟩ := hdead i hi
      have hne : i ≠ t.max + 1 := by omega
      exact ⟨hpos', hle'.trans (Nat.le_succ _), (Function.update_of_ne hne _ _).trans hoff'⟩

/-- **A live record is deleted.** -/
theorem TinyArray.Sound.deleteById (hs : t.Sound) (hmax : t.max ≤ arrayMax) (id : ℕ) :
    (t.deleteById id).2.Sound := by
  rw [arrayMax] at hmax
  rw [TinyArray.deleteById]
  by_cases hid : t.bits id = true
  · obtain ⟨ids, hchain, hnodup, hdead⟩ := hs.free
    have hnot : id ∉ ids := fun hmem => Bool.false_ne_true ((hdead id hmem).2.2.symm.trans hid)
    have hlive : ∀ i, Function.update t.bits id false i = true → t.bits i = true ∧ i ≠ id := by
      intro i hi
      rw [Function.update_apply] at hi
      split_ifs at hi with heq
      exact ⟨hi, heq⟩
    have hset : {i | Function.update t.bits id false i = true} = {i | t.bits i = true} \ {id} := by
      ext i
      rw [Set.mem_ofPred_eq, Set.mem_sdiff, Set.mem_ofPred_eq, Set.mem_singleton_iff]
      refine ⟨hlive i, fun hi => ?_⟩
      rw [Function.update_of_ne hi.2]
      exact hi.1
    have hentries : t.nEntries - 1 = Set.ncard {i | Function.update t.bits id false i = true} := by
      rw [hset, Set.ncard_sdiff_singleton_of_mem (show id ∈ {i | t.bits i = true} from hid), ← hs.entries]
    have hpos : 0 < t.nEntries := by
      rw [hs.entries]
      exact (Set.ncard_pos hs.finite).mpr ⟨id, hid⟩
    have htotal : t.nEntries - 1 + (t.nGarbages + 1) = t.max := by
      have htotal := hs.total
      omega
    have hlive' : ∀ i, Function.update t.bits id false i = true → 0 < i ∧ i ≤ t.max := fun i hi =>
      hs.live i (hlive i hi).1
    have hdead' : ∀ i ∈ ids, 0 < i ∧ i ≤ t.max ∧ Function.update t.bits id false i = false := by
      intro i hi
      obtain ⟨hpos, hle, hoff⟩ := hdead i hi
      have hne : i ≠ id := fun heq => hnot (heq ▸ hi)
      exact ⟨hpos, hle, (Function.update_of_ne hne _ _).trans hoff⟩
    rw [if_pos hid]
    by_cases hcan : t.canUseValueForGarbage = true
    · simp only [if_pos hcan]
      have hsmall : t.garbages % 256 ^ 4 = t.garbages := by
        by_cases hzero : t.garbages = 0
        · rw [hzero]
          rfl
        · obtain ⟨rest, rfl, -⟩ := hchain.pop hzero
          have hle := (hdead _ List.mem_cons_self).2.1
          omega
      refine ⟨hlive', htotal, hentries, fun hcan' => ?_, id :: ids, ?_, List.nodup_cons.mpr ⟨hnot, hnodup⟩,
        fun i hi => ?_⟩
      · exact absurd (hcan'.symm.trans hcan) Bool.false_ne_true
      · refine hchain.push (Nat.ne_of_gt (hs.live id hid).1) ?_ fun i hi => ?_
        · simp only [Function.update_self]
          exact (readNat_writeNat _ _ _ _).trans hsmall
        · have hne : i ≠ id := fun heq => hnot (heq ▸ hi)
          exact congrArg (fun value => readNat value 0 4) (Function.update_of_ne hne _ _)
      · rcases List.mem_cons.mp hi with rfl | hi
        · exact ⟨(hs.live i hid).1, (hs.live i hid).2, Function.update_self _ _ _⟩
        · exact hdead' i hi
    · simp only [if_neg hcan]
      exact ⟨hlive', htotal, hentries, hs.unlinked, ids, hchain, hnodup, hdead'⟩
  · rw [if_neg hid]
    exact hs

/-- Without garbages every id that was handed out is live. -/
theorem TinyArray.Sound.bits_of_no_garbages (hs : t.Sound) (hnone : t.nGarbages = 0) (hpos : 0 < id)
    (hle : id ≤ t.max) : t.bits id = true := by
  by_contra hoff
  exact Nat.ne_of_gt (hs.nGarbages_pos hpos hle (Bool.eq_false_of_not_eq_true hoff)) hnone

/-- **The value of a live record is set.** -/
theorem TinyArray.Sound.setValue (hs : t.Sound) (id : ℕ) (value : List UInt8) : (t.setValue id value).Sound := by
  have hput : t.bits id = true → ∀ v, ({ t with values := Function.update t.values id v } : TinyArray).Sound := by
    intro hid v
    obtain ⟨ids, hchain, hnodup, hdead⟩ := hs.free
    refine ⟨hs.live, hs.total, hs.entries, hs.unlinked, ids, hchain.congr fun i hi => ?_, hnodup, hdead⟩
    have hne : i ≠ id := fun heq => Bool.false_ne_true ((hdead i hi).2.2.symm.trans (heq ▸ hid))
    exact congrArg (fun value => readNat value 0 4) (Function.update_of_ne hne _ _)
  rw [TinyArray.setValue]
  split_ifs with hany hid hout
  · exact hput hid _
  · exact hs
  · exact hs
  · obtain ⟨hne, hle⟩ := not_or.mp hout
    exact hput (hs.bits_of_no_garbages (not_not.mp hany) (Nat.pos_of_ne_zero hne) (Nat.not_lt.mp hle)) _

/-- Ids are handed out one after another. -/
theorem TinyArray.max_le_step (t : TinyArray) (op : TinyOp) : t.max ≤ (t.step op).max := by
  cases op with
  | add fails =>
    rw [TinyArray.step, TinyArray.add]
    split_ifs
    · exact Nat.le_refl _
    · exact Nat.le_refl _
    · exact Nat.le_succ _
  | delete id =>
    rw [TinyArray.step, TinyArray.deleteById]
    split_ifs <;> exact Nat.le_refl _
  | setValue id value =>
    rw [TinyArray.step, TinyArray.setValue]
    split_ifs <;> exact Nat.le_refl _

theorem TinyArray.max_le_run (t : TinyArray) (ops : List TinyOp) : t.max ≤ (t.run ops).max := by
  induction ops generalizing t with
  | nil => exact Nat.le_refl _
  | cons op ops ih => exact (t.max_le_step op).trans (ih _)

/-- **A run** keeps the invariant, as long as the ids are no larger than an id may be. -/
theorem TinyArray.Sound.run (hs : t.Sound) (ops : List TinyOp) (hmax : (t.run ops).max ≤ arrayMax) :
    (t.run ops).Sound := by
  induction ops generalizing t with
  | nil => exact hs
  | cons op ops ih =>
    have hle : t.max ≤ arrayMax := (t.max_le_run (op :: ops)).trans hmax
    refine ih ?_ hmax
    cases op with
    | add fails => exact hs.add fails
    | delete id => exact hs.deleteById hle id
    | setValue id value => exact hs.setValue id value

/-! ## The promise -/

/-- What the loops see of the ids within the bounds is what is live. -/
theorem TinyArray.Sound.filter_seen (hs : t.Sound) (b : Bounds) :
    (b.ids t.max).filter t.seen = (b.ids t.max).filter t.bits := by
  apply List.filter_congr
  intro id hid
  obtain ⟨hpos, hle⟩ := (Bounds.mem_ids.mp hid).1
  rw [TinyArray.seen]
  by_cases hnone : t.nGarbages = 0
  · rw [decide_eq_true hnone, Bool.true_or, hs.bits_of_no_garbages hnone hpos hle]
  · rw [decide_eq_false hnone, Bool.false_or]

/-- No more ids are live than entries are counted. -/
theorem TinyArray.Sound.length_live_le (hs : t.Sound) (b : Bounds) :
    ((b.ids t.max).filter t.bits).length ≤ t.nEntries := by
  have hnodup : ((b.ids t.max).filter t.bits).Nodup := (b.nodup_ids _).filter _
  rw [hs.entries, ← List.toFinset_card_of_nodup hnodup, ← Set.ncard_coe_finset]
  refine Set.ncard_le_ncard (fun id hid => ?_) hs.finite
  rw [Finset.mem_coe, List.mem_toFinset, List.mem_filter] at hid
  exact hid.2

/-- **A call** is a step of the scan. -/
theorem TinyArray.scan_cursorNext (t : TinyArray) (c : ArrayCursor) :
    c.scan.next 0x100000000 t.seen 0x100000000 = ((t.cursorNext c).1, (t.cursorNext c).2.scan) := by
  rcases c with ⟨currRec, tail, rest, descending⟩
  rw [TinyArray.cursorNext, Scan.next, ArrayCursor.scan]
  by_cases hrest : rest = 0
  · simp only [if_pos hrest]
    rfl
  · simp only [if_neg hrest]
    split_ifs
    · rfl
    · rfl

/-- **The cursor is opened as a scan.** -/
theorem TinyArray.Sound.opened (hs : t.Sound) (hle : t.max ≤ arrayMax) (hmin : a.min ≤ t.max) (hmax : a.max ≤ t.max) :
    (t.cursorOpen a).scan.Opened 0x100000000 a.bounds t.max (decide (t.nGarbages ≠ 0)) t.seen a.offset a.limit := by
  rw [TinyArray.cursorOpen, rangeOf_eq hle hmin hmax]
  refine ⟨rfl, rfl, ?_, fun hany => ?_, fun hnone => ?_⟩
  · simp only [ArrayCursor.scan]
    split_ifs with hneg
    · refine .inr ⟨hneg, ?_⟩
      rw [hs.filter_seen]
      exact hs.length_live_le a.bounds
    · exact .inl ⟨Int.not_lt.mp hneg, rfl⟩
  · have hany' := of_decide_eq_true hany
    have hsame : t.seen = t.bits := by
      funext id
      rw [TinyArray.seen, decide_eq_false hany', Bool.false_or]
    simp only [ArrayCursor.scan, if_pos hany', hsame]
    rfl
  · simp only [ArrayCursor.scan, if_neg (of_decide_eq_false hnone)]
    rfl

/-- **The cursor obeys exactly** when there are garbages, or when the offset is not larger than the
number of live records in the interval. -/
theorem TinyArray.Sound.cursorObeys_iff (hs : t.Sound) (hle : t.max ≤ arrayMax) (hmin : a.min ≤ t.max)
    (hmax : a.max ≤ t.max) (hoffset : 0 ≤ a.offset) (hint : a.offset < 0x80000000) :
    t.CursorObeys a ↔ t.nGarbages ≠ 0 ∨ a.offset ≤ ((a.bounds.ids t.max).filter t.bits).length := by
  have hle' := hle
  rw [arrayMax] at hle'
  have hiff := (hs.opened hle hmin hmax).obeys_iff hmin hmax hoffset (by push_cast; omega)
    (fun hnone id => by
      rw [TinyArray.seen, decide_eq_true (not_not.mp (of_decide_eq_false hnone)), Bool.true_or])
  rw [hs.filter_seen, decide_eq_true_iff] at hiff
  rw [← hiff]
  exact (Bounds.obeys_congr t.cursorNext (Scan.next 0x100000000 t.seen 0x100000000) ArrayCursor.currRec Scan.curr
    a.offset a.limit ArrayCursor.scan (fun _ => True)
    (fun c _ => ⟨trivial, t.scan_cursorNext c⟩) (fun _ => rfl) (hs.filter_seen a.bounds) trivial).symm

end Groonga.Table
