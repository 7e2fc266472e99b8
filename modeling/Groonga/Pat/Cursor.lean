import Groonga.Pat.Defrag

/-!
# The cursor by id

A cursor with `GRN_CURSOR_BY_ID` counts from the first id to the last one, or down. It
returns an id if the key of its node is found under that id; but when there are no garbages
every id is live, and nothing is tested.

A defragmentation sets the number of garbages to 0 and keeps the ids of the live records. An
id below the last live one that is not live then counts as live: the cursor returns it. So
the cursor is right as long as every defragmentation happens when the live ids are those up
to the last one.
-/

namespace Groonga.Pat

open Lib.Patricia Lib.Patricia.Trie

/-! ## The cursor -/

/-- `grn_pat_cursor`, the part of a cursor by id. -/
structure Cursor where
  currRec : ℕ
  tail : ℕ
  rest : ℕ
  descending : Bool

/-- `c->curr_rec += dir`. -/
def Cursor.advance (c : Cursor) : Cursor :=
  { c with currRec := if c.descending then c.currRec - 1 else c.currRec + 1 }

/-- The key of the node is found under its own id. -/
def isFound (s : GrnPat) (id : ℕ) : Bool := grnPatGet s (_grnPatKey s id) == some id

/-- The loop of `grn_pat_cursor_open_by_id` that skips `offset` live ids. -/
def skipLoop (s : GrnPat) : ℕ → ℕ → Cursor → Option Cursor
  | 0, _, _ => none
  | fuel + 1, offset, c =>
    if offset = 0 ∨ c.currRec = c.tail then some c
    else
      let c := c.advance
      skipLoop s fuel (if isFound s c.currRec then offset - 1 else offset) c

/-- `dir * (c->tail - c->curr_rec)`. -/
def Cursor.distance (c : Cursor) : ℕ := if c.descending then c.currRec - c.tail else c.tail - c.currRec

/-- `c->curr_rec += dir * offset`. -/
def Cursor.jump (c : Cursor) (offset : ℕ) : Cursor :=
  { c with currRec := if c.descending then c.currRec - offset else c.currRec + offset }

/-- `grn_pat_cursor_open_by_id` without `min` and `max`. -/
def grnPatCursorOpenById (s : GrnPat) (offset : ℕ) (limit : ℤ) (descending : Bool) :
    Option Cursor := do
  let rest := if limit < 0 then grnIdMax else limit.toNat
  let c : Cursor := if descending then ⟨s.currRec + 1, 1, rest, true⟩ else ⟨0, s.currRec, rest, false⟩
  if s.nGarbages ≠ 0 then
    skipLoop s (s.currRec + 1) offset c
  else if c.distance < offset then
    return { c with currRec := c.tail }
  else
    return c.jump offset

/-- The loop of `grn_pat_cursor_next_by_id`. -/
def nextLoop (s : GrnPat) : ℕ → Cursor → Option (ℕ × Cursor)
  | 0, _ => none
  | fuel + 1, c =>
    if c.currRec = c.tail then some (0, c)
    else
      let c := c.advance
      if s.nGarbages ≠ 0 ∧ !isFound s c.currRec then nextLoop s fuel c
      else some (c.currRec, { c with rest := c.rest - 1 })

/-- `grn_pat_cursor_next` of a cursor by id: `GRN_ID_NIL` at the end. -/
def grnPatCursorNext (s : GrnPat) (c : Cursor) : Option (ℕ × Cursor) :=
  if c.rest = 0 then some (0, c) else nextLoop s (s.currRec + 1) c

/-- The ids that a cursor returns until `GRN_ID_NIL`. -/
def idsLoop (s : GrnPat) : ℕ → Cursor → Option (List ℕ)
  | 0, _ => none
  | fuel + 1, c => do
    let (id, c) ← grnPatCursorNext s c
    if id = 0 then return []
    else
      let ids ← idsLoop s fuel c
      return id :: ids

/-- The ids that a cursor without `min` and `max` returns. -/
def cursorIds (s : GrnPat) (offset : ℕ) (limit : ℤ) (descending : Bool) : Option (List ℕ) := do
  let c ← grnPatCursorOpenById s offset limit descending
  idsLoop s (s.currRec + 1) c

/-! ## What is ahead of a cursor -/

variable {s : GrnPat} {t : Trie ℕ} {own : ℕ → ℕ} {free : ℕ → List ℕ} {lost : Finset ℕ} {m : IdMap}
  {c : Cursor}

/-- The ids between the cursor and its end, in its order. -/
def Cursor.ahead (c : Cursor) : List ℕ :=
  if c.descending then (List.range' c.tail (c.currRec - c.tail)).reverse
  else List.range' (c.currRec + 1) (c.tail - c.currRec)

/-- The ids that pass the test. -/
def passes (s : GrnPat) (id : ℕ) : Bool := decide (s.nGarbages = 0) || isFound s id

/-- The end of the cursor is not behind it. -/
def Cursor.Ordered (c : Cursor) : Prop :=
  if c.descending then 1 ≤ c.tail ∧ c.tail ≤ c.currRec else c.currRec ≤ c.tail

theorem Cursor.length_ahead (c : Cursor) : c.ahead.length = c.distance := by
  unfold Cursor.ahead Cursor.distance
  split_ifs <;> simp

/-- At the end nothing is ahead. -/
theorem Cursor.ahead_eq_nil (hc : c.currRec = c.tail) : c.ahead = [] := by
  rw [← List.length_eq_zero_iff, Cursor.length_ahead, Cursor.distance, hc]
  simp

/-- The next id is the first one ahead. -/
theorem Cursor.ahead_eq_cons (h : c.Ordered) (hc : c.currRec ≠ c.tail) :
    c.ahead = c.advance.currRec :: c.advance.ahead ∧ c.advance.Ordered ∧
      c.advance.currRec ≠ 0 := by
  obtain ⟨currRec, tail, rest, descending⟩ := c
  cases descending with
  | true =>
    obtain ⟨h1, h2⟩ : 1 ≤ tail ∧ tail ≤ currRec := by simpa [Cursor.Ordered] using h
    have hlt : tail < currRec := lt_of_le_of_ne h2 (Ne.symm hc)
    obtain ⟨n, rfl⟩ : ∃ n, currRec = tail + n + 1 := ⟨currRec - tail - 1, by omega⟩
    have hsub : tail + n + 1 - tail = n + 1 := by omega
    have hsub' : tail + n - tail = n := by omega
    refine ⟨?_, ?_, ?_⟩
    · simp [Cursor.ahead, Cursor.advance, hsub, List.range'_concat]
    · simp [Cursor.Ordered, Cursor.advance, h1]
    · simp [Cursor.advance]
      omega
  | false =>
    have h1 : currRec ≤ tail := by simpa [Cursor.Ordered] using h
    obtain ⟨n, rfl⟩ : ∃ n, tail = currRec + (n + 1) := ⟨tail - currRec - 1, by
      have : currRec ≠ tail := hc
      omega⟩
    have hsub : currRec + (n + 1) - (currRec + 1) = n := by omega
    refine ⟨?_, ?_, ?_⟩
    · simp [Cursor.ahead, Cursor.advance, hsub, List.range'_succ]
    · simp [Cursor.Ordered, Cursor.advance]
    · simp [Cursor.advance]

/-- **Skipping**: the first `offset` ids that are found are passed over. -/
theorem skipLoop_spec (h : c.Ordered) {fuel : ℕ} (hfuel : c.ahead.length < fuel) (offset : ℕ) :
    ∃ c', skipLoop s fuel offset c = some c' ∧ c'.Ordered ∧ c'.rest = c.rest ∧
      c'.ahead.length ≤ c.ahead.length ∧
      c'.ahead.filter (isFound s) = (c.ahead.filter (isFound s)).drop offset := by
  induction fuel generalizing c offset with
  | zero => exact absurd hfuel (Nat.not_lt_zero _)
  | succ fuel ih =>
    unfold skipLoop
    split_ifs with hstop
    · refine ⟨c, rfl, h, rfl, le_rfl, ?_⟩
      rcases hstop with rfl | hend
      · rfl
      · simp [Cursor.ahead_eq_nil hend]
    · rw [not_or] at hstop
      obtain ⟨hoffset, hend⟩ := hstop
      obtain ⟨hcons, hordered, -⟩ := c.ahead_eq_cons h hend
      rw [hcons, List.length_cons] at hfuel
      obtain ⟨c', hskip, hordered', hrest, hle, hfilter⟩ := ih hordered (Nat.lt_of_succ_lt_succ hfuel)
        (if isFound s c.advance.currRec then offset - 1 else offset)
      refine ⟨c', hskip, hordered', hrest, ?_, ?_⟩
      · rw [hcons, List.length_cons]
        exact hle.trans (Nat.le_succ _)
      · rw [hfilter, hcons]
        cases hfound : isFound s c.advance.currRec with
        | false => simp [hfound]
        | true =>
          obtain ⟨n, rfl⟩ := Nat.exists_eq_succ_of_ne_zero hoffset
          simp [hfound]

/-- **The next id** is the first one ahead that passes. -/
theorem nextLoop_spec (h : c.Ordered) {fuel : ℕ} (hfuel : c.ahead.length < fuel) :
    (c.ahead.filter (passes s) = [] ∧ ∃ c', nextLoop s fuel c = some (0, c')) ∨
    ∃ id c', nextLoop s fuel c = some (id, c') ∧ id ≠ 0 ∧ c'.Ordered ∧ c'.rest = c.rest - 1 ∧
      c'.ahead.length < c.ahead.length ∧
      c.ahead.filter (passes s) = id :: c'.ahead.filter (passes s) := by
  induction fuel generalizing c with
  | zero => exact absurd hfuel (Nat.not_lt_zero _)
  | succ fuel ih =>
    simp only [nextLoop]
    split_ifs with hend hskip
    · exact .inl ⟨by simp [Cursor.ahead_eq_nil hend], c, rfl⟩
    · obtain ⟨hcons, hordered, -⟩ := c.ahead_eq_cons h hend
      have hpass : passes s c.advance.currRec = false := by simpa [passes] using hskip
      rw [hcons, List.length_cons] at hfuel
      rw [hcons, List.filter_cons_of_neg (by simp [hpass])]
      rcases ih hordered (Nat.lt_of_succ_lt_succ hfuel) with hnone | ⟨id, c', hnext, hid, hordered', hrest, hlt, hfilter⟩
      · exact .inl hnone
      · exact .inr ⟨id, c', hnext, hid, hordered', hrest, hlt.trans (Nat.lt_succ_self _), hfilter⟩
    · obtain ⟨hcons, hordered, hne⟩ := c.ahead_eq_cons h hend
      have hpass : passes s c.advance.currRec = true := by
        rw [passes, Bool.or_eq_true, decide_eq_true_iff]
        by_cases hg : s.nGarbages = 0
        · exact .inl hg
        · refine .inr ?_
          simpa [hg] using hskip
      refine .inr ⟨_, _, rfl, hne, hordered, rfl, ?_, ?_⟩
      · rw [hcons]
        exact Nat.lt_succ_self _
      · rw [hcons, List.filter_cons_of_pos hpass]
        rfl

theorem Cursor.ahead_jump (h : c.Ordered) {offset : ℕ} (hoffset : offset ≤ c.distance) :
    (c.jump offset).ahead = c.ahead.drop offset ∧ (c.jump offset).Ordered := by
  obtain ⟨currRec, tail, rest, descending⟩ := c
  cases descending with
  | true =>
    obtain ⟨h1, h2⟩ : 1 ≤ tail ∧ tail ≤ currRec := by simpa [Cursor.Ordered] using h
    have hoffset : offset ≤ currRec - tail := by simpa [Cursor.distance] using hoffset
    have hsub : currRec - offset - tail = currRec - tail - offset := by omega
    refine ⟨?_, ?_⟩
    · simp [Cursor.jump, Cursor.ahead, List.drop_reverse, List.take_range'_of_length_ge, hsub]
    · simp only [Cursor.jump, Cursor.Ordered, if_true]
      omega
  | false =>
    have h1 : currRec ≤ tail := by simpa [Cursor.Ordered] using h
    have hoffset : offset ≤ tail - currRec := by simpa [Cursor.distance] using hoffset
    have hsub : tail - (currRec + offset) = tail - currRec - offset := by omega
    have hadd : currRec + offset + 1 = currRec + 1 + offset := by omega
    refine ⟨?_, ?_⟩
    · simp [Cursor.jump, Cursor.ahead, List.drop_range', hsub, hadd]
    · simp only [Cursor.jump, Cursor.Ordered, Bool.false_eq_true, if_false]
      omega

/-- **All ids**: those ahead that pass, as many as the cursor may return. -/
theorem idsLoop_spec (h : c.Ordered) {fuel : ℕ} (hfuel : c.ahead.length < fuel)
    (hle : c.ahead.length ≤ s.currRec) :
    idsLoop s fuel c = some ((c.ahead.filter (passes s)).take c.rest) := by
  induction fuel generalizing c with
  | zero => exact absurd hfuel (Nat.not_lt_zero _)
  | succ fuel ih =>
    simp only [idsLoop, grnPatCursorNext]
    by_cases hrest : c.rest = 0
    · simp [hrest]
    · rw [if_neg hrest]
      rcases nextLoop_spec (s := s) h (Nat.lt_succ_of_le hle) with ⟨hnil, c', hnext⟩ |
        ⟨id, c', hnext, hid, hordered, hrest', hlt, hcons⟩
      · simp [hnext, hnil]
      · have hids := ih hordered (by omega) (by omega)
        obtain ⟨n, hn⟩ := Nat.exists_eq_succ_of_ne_zero hrest
        rw [hrest', hn, Nat.succ_sub_one] at hids
        simp [hnext, hid, hids, hcons, hn]

/-- All ids up to the last one, in the order of the cursor. -/
def allIds (s : GrnPat) (descending : Bool) : List ℕ :=
  if descending then (List.range' 1 s.currRec).reverse else List.range' 1 s.currRec

/-- How many ids a limit allows: a negative one is no limit. -/
def limited (limit : ℤ) (ids : List ℕ) : List ℕ := if limit < 0 then ids else ids.take limit.toNat

theorem length_allIds (s : GrnPat) (descending : Bool) : (allIds s descending).length = s.currRec := by
  unfold allIds
  split_ifs <;> simp

/-- **What a cursor returns.** -/
theorem cursorIds_eq (hmax : s.currRec ≤ grnIdMax) (offset : ℕ) (limit : ℤ) (descending : Bool) :
    cursorIds s offset limit descending =
      some (limited limit (((allIds s descending).filter (passes s)).drop offset)) := by
  set rest := if limit < 0 then grnIdMax else limit.toNat with hrest
  have htake : ∀ ids : List ℕ, ids.length ≤ s.currRec → ids.take rest = limited limit ids := by
    intro ids hids
    unfold limited
    split_ifs with hlimit
    · rw [hrest, if_pos hlimit]
      exact List.take_of_length_le (hids.trans hmax)
    · rw [hrest, if_neg hlimit]
  set start : Cursor :=
    if descending then ⟨s.currRec + 1, 1, rest, true⟩ else ⟨0, s.currRec, rest, false⟩ with hstart
  have hahead : start.ahead = allIds s descending := by
    cases descending <;> simp [hstart, Cursor.ahead, allIds]
  have hordered : start.Ordered := by
    cases descending <;> simp [hstart, Cursor.Ordered]
  have hstartRest : start.rest = rest := by
    cases descending <;> rfl
  have hlength : start.ahead.length = s.currRec := by rw [hahead, length_allIds]
  -- the cursor that was opened
  obtain ⟨c, hopen, hc, hcrest, hcle, hfilter⟩ : ∃ c, grnPatCursorOpenById s offset limit descending =
      some c ∧ c.Ordered ∧ c.rest = rest ∧ c.ahead.length ≤ s.currRec ∧
      c.ahead.filter (passes s) = ((allIds s descending).filter (passes s)).drop offset := by
    unfold grnPatCursorOpenById
    simp only [← hrest, ← hstart]
    split_ifs with hgarbages hfar
    · obtain ⟨c, hskip, hc, hcrest, hcle, hfilter⟩ :=
        skipLoop_spec (s := s) hordered (by rw [hlength]; exact Nat.lt_succ_self _) offset
      have hpasses : passes s = isFound s := funext fun id => by simp [passes, hgarbages]
      rw [hpasses, ← hahead]
      exact ⟨c, hskip, hc, hcrest.trans hstartRest, hcle.trans hlength.le, hfilter⟩
    · -- more ids are to be skipped than there are
      have hpasses : ∀ id, passes s id = true := fun id => by simp [passes, not_not.mp hgarbages]
      have hnil : ({ start with currRec := start.tail } : Cursor).ahead = [] := Cursor.ahead_eq_nil rfl
      refine ⟨_, rfl, ?_, hstartRest, ?_, ?_⟩
      · cases descending <;> simp [hstart, Cursor.Ordered]
      · rw [hnil]
        exact Nat.zero_le _
      · rw [hnil, List.filter_nil, List.filter_eq_self.mpr fun id _ => hpasses id, ← hahead,
          List.drop_eq_nil_of_le]
        rw [Cursor.length_ahead]
        exact hfar.le
    · have hpasses : ∀ id, passes s id = true := fun id => by simp [passes, not_not.mp hgarbages]
      obtain ⟨hjump, hjumpOrdered⟩ := Cursor.ahead_jump hordered (Nat.not_lt.mp hfar)
      refine ⟨start.jump offset, rfl, hjumpOrdered, hstartRest, ?_, ?_⟩
      · rw [hjump, List.length_drop, hlength]
        exact Nat.sub_le ..
      · rw [hjump, List.filter_eq_self.mpr fun id _ => hpasses id,
          List.filter_eq_self.mpr fun id _ => hpasses id, hahead]
  rw [cursorIds, hopen, Option.bind_eq_bind, Option.bind_some,
    idsLoop_spec hc (Nat.lt_succ_of_le hcle) hcle, hcrest, hfilter, htake]
  rw [List.length_drop]
  refine (Nat.sub_le ..).trans ?_
  rw [← length_allIds s descending]
  exact List.length_filter_le ..

/-! ## Live ids -/

/-- **The cursor is right**: whatever its order, offset and limit are, it returns the live ids
in that order, without the first `offset` of them and at most `limit`. -/
def YieldsLive (s : GrnPat) (m : IdMap) : Prop :=
  ∀ (offset : ℕ) (limit : ℤ) (descending : Bool), ∃ live : List ℕ,
    (∀ id, id ∈ live ↔ ∃ key, m key = some id) ∧
    (live.Pairwise fun a b => if descending then b < a else a < b) ∧
    cursorIds s offset limit descending = some (limited limit (live.drop offset))

theorem mem_allIds {id : ℕ} {descending : Bool} :
    id ∈ allIds s descending ↔ 1 ≤ id ∧ id ≤ s.currRec := by
  have hrange : id ∈ List.range' 1 s.currRec ↔ 1 ≤ id ∧ id ≤ s.currRec := by
    rw [List.mem_range'_1]
    omega
  unfold allIds
  split_ifs
  · rw [List.mem_reverse, hrange]
  · exact hrange

theorem pairwise_allIds (s : GrnPat) (descending : Bool) :
    (allIds s descending).Pairwise fun a b => if descending then b < a else a < b := by
  cases descending with
  | false => simpa [allIds] using List.pairwise_lt_range'
  | true => simpa [allIds, List.pairwise_reverse] using List.pairwise_lt_range'

namespace Inv

/-- The test of the cursor is right for every id. -/
theorem isFound_iff (h : Inv s t own free lost) {id : ℕ} (hid : id ≠ 0) :
    isFound s id = true ↔ id ∈ t.leaves := by
  rw [isFound, beq_iff_eq]
  constructor
  · exact fun hget => h.liveId_iff.mp ⟨hid, _, hget⟩
  · intro hlive
    rw [h.grnPatKey_eq (h.known (mem_ids.mpr (.inr hlive)))]
    exact h.grnPatGet_of_live hlive rfl

/-- Without garbages, every id that is not lost is live. -/
theorem live_of_no_garbages (h : Inv s t own free ∅) (hgarbages : s.nGarbages = 0) {id : ℕ}
    (h1 : 1 ≤ id) (h2 : id ≤ s.currRec) : id ∈ t.leaves := by
  have hcount := h.accounts.count
  rw [hgarbages, Finset.card_empty, h.accounts.entries] at hcount
  have hsub : t.leaves.toFinset ⊆ Finset.Icc 1 s.currRec := fun i hi =>
    Finset.mem_Icc.mpr (h.range (mem_ids.mpr (.inr (Multiset.mem_toFinset.mp hi))))
  have heq : t.leaves.toFinset = Finset.Icc 1 s.currRec := by
    refine Finset.eq_of_subset_of_card_le hsub ?_
    rw [Multiset.toFinset_card_of_nodup h.rooted.leaves_nodup, Nat.card_Icc, Nat.add_sub_cancel]
    exact hcount.ge
  rw [← Multiset.mem_toFinset, heq]
  exact Finset.mem_Icc.mpr ⟨h1, h2⟩

end Inv

/-- **When the cursor is right**: there are garbages, or no id is lost. -/
theorem Represents.yieldsLive_iff (h : Represents s m lost) :
    YieldsLive s m ↔ s.nGarbages ≠ 0 ∨ lost = ∅ := by
  obtain ⟨t, own, free, hinv, hm⟩ := h
  have hlive : ∀ id, (∃ key, m key = some id) ↔ id ∈ t.leaves := fun id => by
    simp [hm]
  have hmax := hinv.accounts.currRec_le
  constructor
  · intro hyields
    by_cases hgarbages : s.nGarbages = 0
    · -- the cursor returns every id
      right
      obtain ⟨live, hmem, -, hids⟩ := hyields 0 (-1) false
      have hpasses : ∀ id ∈ allIds s false, passes s id = true := fun id _ => by
        simp [passes, hgarbages]
      rw [cursorIds_eq hmax, List.filter_eq_self.mpr hpasses] at hids
      have hall : allIds s false = live := by simpa [limited] using hids
      rw [Finset.eq_empty_iff_forall_notMem]
      intro id hlost
      have hin : id ∈ t.leaves := by
        rw [← hlive, ← hmem, ← hall, mem_allIds]
        exact hinv.accounts.lost_le id hlost
      exact (hinv.known (mem_ids.mpr (.inr hin))).2.2 hlost
    · exact .inl hgarbages
  · intro hright offset limit descending
    refine ⟨(allIds s descending).filter (passes s), fun id => ?_,
      (pairwise_allIds s descending).filter _, cursorIds_eq hmax offset limit descending⟩
    rw [hlive, List.mem_filter, mem_allIds]
    constructor
    · rintro ⟨⟨h1, h2⟩, hpass⟩
      by_cases hgarbages : s.nGarbages = 0
      · obtain rfl := hright.resolve_left (not_not.mpr hgarbages)
        exact hinv.live_of_no_garbages hgarbages h1 h2
      · rw [passes, Bool.or_eq_true, decide_eq_true_iff] at hpass
        exact (hinv.isFound_iff (Nat.one_le_iff_ne_zero.mp h1)).mp (hpass.resolve_left hgarbages)
    · intro hin
      have hrange := hinv.range (mem_ids.mpr (.inr hin))
      refine ⟨hrange, ?_⟩
      rw [passes, Bool.or_eq_true]
      exact .inr ((hinv.isFound_iff (Nat.one_le_iff_ne_zero.mp hrange.1)).mpr hin)

/-! ## Runs -/

/-- An addition, a deletion or a defragmentation. -/
inductive Edit where
  | add (key : List UInt8)
  | delete (key : List UInt8)
  | defrag

/-- The table and the map of the live keys after a step. -/
def edit (s : GrnPat) (m : IdMap) : Edit → GrnPat × IdMap
  | .add key => ((call s (.add key)).1, m.after (.add key) (call s (.add key)).2)
  | .delete key => ((call s (.delete key)).1, m.after (.delete key) (call s (.delete key)).2)
  | .defrag => (op s .defrag, m)

/-- The table and the map after a sequence of steps. -/
def runEdits (s : GrnPat) (m : IdMap) (edits : List Edit) : GrnPat × IdMap :=
  edits.foldl (fun sm e => edit sm.1 sm.2 e) (s, m)

/-- Every id up to the last live one is live. -/
def NoHoles (m : IdMap) : Prop :=
  ∀ key id, m key = some id → ∀ i, 1 ≤ i → i ≤ id → ∃ key', m key' = some i

/-- Every defragmentation happens when there are no holes. -/
def DefragsWithoutHoles : GrnPat → IdMap → List Edit → Prop
  | _, _, [] => True
  | s, m, e :: edits => (e = .defrag → NoHoles m) ∧
      DefragsWithoutHoles (edit s m e).1 (edit s m e).2 edits

theorem foldl_max_mem (ids : List ℕ) (n : ℕ) : ids.foldl max n = n ∨ ids.foldl max n ∈ ids := by
  induction ids generalizing n with
  | nil => exact .inl rfl
  | cons a ids ih =>
    rcases ih (max n a) with heq | hmem
    · rcases max_choice n a with hn | ha
      · exact .inl (heq.trans hn)
      · exact .inr (List.mem_cons.mpr (.inl (heq.trans ha)))
    · exact .inr (List.mem_cons_of_mem _ hmem)

/-- **A defragmentation** keeps the live keys. The ids that it loses are the holes. -/
theorem Represents.defrag (h : Represents s m lost) :
    ∃ lost', Represents (op s .defrag) m lost' ∧ (op s .defrag).nGarbages = 0 ∧
      (lost' = ∅ ↔ NoHoles m) := by
  obtain ⟨t, own, free, hinv, hm⟩ := h
  obtain ⟨settled, t', own', s', reduced, -, hdefrag, hsettled, hs', hinv', hleaves, hkeyOf, -⟩ :=
    grnPatDefrag_spec hinv
  have hop : op s .defrag = s' := by
    simp only [op, hdefrag, Option.map_some, Option.getD_some]
  rw [hop]
  refine ⟨holes settled t.leaves, ⟨t', own', _, hinv', fun key id => ?_⟩, by rw [hs']; rfl, ?_⟩
  · rw [hm, hleaves]
    exact and_congr_right fun hid => by rw [hkeyOf id hid]
  · have hlive : ∀ id, (∃ key, m key = some id) ↔ id ∈ t.leaves := fun id => by simp [hm]
    rw [holes, Finset.filter_eq_empty_iff]
    constructor
    · intro hnone key id hkey i h1 h2
      have hid : id ∈ t.leaves := (hlive id).mp ⟨key, hkey⟩
      rw [hlive]
      refine not_not.mp (hnone (Finset.mem_Icc.mpr ⟨h1, h2.trans ?_⟩))
      exact hsettled.le_activeMaxId (hleaves ▸ hid)
    · intro hno i hi
      obtain ⟨h1, h2⟩ := Finset.mem_Icc.mp hi
      rw [not_not]
      -- the last live id is live, as there is one
      have hlast : activeMaxId settled ∈ t.leaves := by
        rcases foldl_max_mem (grnPatEach settled) 0 with hzero | hmem
        · have : activeMaxId settled = 0 := hzero
          omega
        · rw [← hleaves]
          exact hsettled.mem_grnPatEach.mp hmem
      obtain ⟨key, hkey⟩ := (hlive _).mpr hlast
      exact (hlive i).mp (hno key _ hkey i h1 h2)

theorem Represents.edit (h : Represents s m lost) (e : Edit) :
    ∃ lost', Represents (edit s m e).1 (edit s m e).2 lost' ∧
      (lost = ∅ → (e = .defrag → NoHoles m) → lost' = ∅) ∧
      (e = .defrag → YieldsLive (Pat.edit s m e).1 (Pat.edit s m e).2 → NoHoles m) := by
  cases e with
  | add key => exact ⟨lost, h.step (c := .add key) trivial, fun hlost _ => hlost, nofun⟩
  | delete key => exact ⟨lost, h.step (c := .delete key) trivial, fun hlost _ => hlost, nofun⟩
  | defrag =>
    obtain ⟨lost', hrep, hgarbages, hiff⟩ := h.defrag
    refine ⟨lost', hrep, fun _ hno => hiff.mpr (hno rfl), fun _ hyields => hiff.mp ?_⟩
    exact (hrep.yieldsLive_iff.mp hyields).resolve_left (not_not.mpr hgarbages)

theorem Represents.runEdits (h : Represents s m lost) (edits : List Edit) :
    ∃ lost', Represents (runEdits s m edits).1 (runEdits s m edits).2 lost' := by
  induction edits generalizing s m lost with
  | nil => exact ⟨lost, h⟩
  | cons e edits ih =>
    obtain ⟨lost', hrep, -⟩ := h.edit e
    exact ih hrep

/-- The cursor is right at every point of the run. -/
def AlwaysYieldsLive (s : GrnPat) (m : IdMap) (edits : List Edit) : Prop :=
  ∀ n, YieldsLive (runEdits s m (edits.take n)).1 (runEdits s m (edits.take n)).2

theorem alwaysYieldsLive_cons {e : Edit} {edits : List Edit} :
    AlwaysYieldsLive s m (e :: edits) ↔
      YieldsLive s m ∧ AlwaysYieldsLive (edit s m e).1 (edit s m e).2 edits := by
  constructor
  · exact fun h => ⟨h 0, fun n => h (n + 1)⟩
  · rintro ⟨h0, h⟩ n
    cases n with
    | zero => exact h0
    | succ n => exact h n

/-- When the cursor is always right, no defragmentation has met a hole. -/
theorem Represents.withoutHoles (h : Represents s m lost) {edits : List Edit}
    (hyields : AlwaysYieldsLive s m edits) : DefragsWithoutHoles s m edits := by
  induction edits generalizing s m lost with
  | nil => trivial
  | cons e edits ih =>
    obtain ⟨-, htail⟩ := alwaysYieldsLive_cons.mp hyields
    obtain ⟨lost', hrep, -, hno⟩ := h.edit e
    exact ⟨fun he => hno he (htail 0), ih hrep htail⟩

/-- Without holes no id is ever lost. -/
theorem Represents.alwaysYieldsLive (h : Represents s m ∅) {edits : List Edit}
    (hno : DefragsWithoutHoles s m edits) : AlwaysYieldsLive s m edits := by
  induction edits generalizing s m with
  | nil =>
    intro n
    rw [List.take_nil]
    exact h.yieldsLive_iff.mpr (.inr rfl)
  | cons e edits ih =>
    obtain ⟨lost', hrep, hlost, -⟩ := h.edit e
    obtain rfl := hlost rfl hno.1
    exact alwaysYieldsLive_cons.mpr ⟨h.yieldsLive_iff.mpr (.inr rfl), ih hrep hno.2⟩

/-- **The cursor is right at every point of a run if and only if every defragmentation of the
run happens when every id up to the last live one is live.** -/
theorem alwaysYieldsLive_iff (isKeyLarge : Bool) (cacheSize : ℕ) (edits : List Edit) :
    AlwaysYieldsLive (grnPatCreate isKeyLarge cacheSize) (fun _ => none) edits ↔
      DefragsWithoutHoles (grnPatCreate isKeyLarge cacheSize) (fun _ => none) edits :=
  ⟨(represents_grnPatCreate isKeyLarge cacheSize).withoutHoles,
    (represents_grnPatCreate isKeyLarge cacheSize).alwaysYieldsLive⟩

/-- Two keys are added, the first one is deleted, and the table is defragmented. -/
def holeEdits : List Edit := [.add [97], .add [98], .delete [97], .defrag]

/-- The cursor returns the id of the deleted record. -/
theorem not_yieldsLive_holeEdits :
    ¬ YieldsLive (runEdits (grnPatCreate false 0) (fun _ => none) holeEdits).1
      (runEdits (grnPatCreate false 0) (fun _ => none) holeEdits).2 := by
  intro h
  obtain ⟨live, hmem, -, hids⟩ := h 0 (-1) false
  have hall : cursorIds (runEdits (grnPatCreate false 0) (fun _ => none) holeEdits).1 0 (-1) false =
      some [1, 2] := by decide +kernel
  rw [hall] at hids
  have hlive : live = [1, 2] := by simpa [limited] using hids.symm
  obtain ⟨key, hkey⟩ := (hmem 1).mp (by simp [hlive])
  -- the key of the node 1 is not found
  obtain ⟨lost, hrep⟩ := (represents_grnPatCreate false 0).runEdits holeEdits
  have hnode : _grnPatKey (runEdits (grnPatCreate false 0) (fun _ => none) holeEdits).1 1 = [97] := by
    decide +kernel
  have hget : grnPatGet (runEdits (grnPatCreate false 0) (fun _ => none) holeEdits).1 [97] =
      some 0 := by decide +kernel
  have hkey97 : [97] = key := hnode.symm.trans (hrep.isMap.key key 1 hkey)
  rw [← hkey97] at hkey
  rw [hrep.isMap.get, hkey] at hget
  cases hget

end Groonga.Pat
