import Groonga.Pat.RangeStack
import Mathlib

/-!
# The cursor for a range of keys

`grn_pat_cursor_open` turns the far bound of a range into a record: the first one that a
cursor from this bound returns the other way. The cursor that starts at the near bound stops
at this record. Whether the range is empty is only tested for the first record.

The cursor is right for a bound from which no branch parts at a bit that is not compared.
-/

namespace Groonga.Pat

open Lib.Patricia Lib.Patricia.Trie

/-! ## Opening the cursor -/

/-- `grn_pat_cursor_push`, of the first node. -/
def grnPatCursorPush (s : GrnPat) (descending : Bool) : List CursorEntry :=
  let node := s.nodes (s.load .root)
  if s.load .root = 0 then []
  else [⟨node.lr descending, node.check⟩, ⟨node.lr !descending, node.check⟩]

/-- `set_cursor_ascend` from `min` or `set_cursor_descend` from `max`. -/
def setCursor (s : GrnPat) (min max : List UInt8) (gt lt descending : Bool) :
    Option (List CursorEntry) :=
  if descending then setCursorDescend s max lt else setCursorAscend s min gt

/-- The first half of `grn_pat_cursor_open`: the record at the far bound as `tail`. -/
def openTail (s : GrnPat) (min max : List UInt8) (gt lt descending : Bool) : Option KeyCursor :=
  let c : KeyCursor := ⟨0, 0, grnIdMax, [], descending⟩
  if (if descending then min else max) = [] then some c
  else
    (setCursor s min max gt lt !descending).bind fun ss =>
      (grnPatCursorNextByKey s { c with ss := ss, descending := !descending }).map fun r =>
        { c with tail := r.1, rest := r.2.rest }

/-- The second half: the stack at the near bound. -/
def openStack (s : GrnPat) (min max : List UInt8) (gt lt descending : Bool) :
    Option (List CursorEntry) :=
  if (if descending then max else min) = [] then some (grnPatCursorPush s descending)
  else setCursor s min max gt lt descending

/-- `grn_pat_cursor_open` of a cursor by key. A bound that is not given, or that is of size 0,
is `[]`. -/
def grnPatCursorOpenByKey (s : GrnPat) (min max : List UInt8) (offset : ℕ) (limit : ℤ)
    (gt lt descending : Bool) : Option KeyCursor :=
  (openTail s min max gt lt descending).bind fun c =>
    ((if (if descending then min else max) ≠ [] ∧ c.tail = 0 then some []
      else openStack s min max gt lt descending).bind fun ss =>
        (skipByKey s offset { c with ss := ss }).map fun c =>
          { c with rest := if limit < 0 then grnIdMax else limit.toNat })

/-- The ids that such a cursor returns until `GRN_ID_NIL`. -/
def rangeCursorIds (s : GrnPat) (min max : List UInt8) (offset : ℕ) (limit : ℤ)
    (gt lt descending : Bool) : Option (List ℕ) :=
  (grnPatCursorOpenByKey s min max offset limit gt lt descending).bind
    (idsByKeyLoop s (s.currRec + 1))

/-! ## The range -/

/-- The key is in the range. -/
def InRange (min max : List UInt8) (gt lt : Bool) (key : List UInt8) : Prop :=
  (min = [] ∨ PastBound false gt min key) ∧ (max = [] ∨ PastBound true lt max key)

/-- **The cursor lists the range**: the ids of the live keys in the range, in the order of the
keys, from the offset on and as many as the limit says. -/
def ListsRange (s : GrnPat) (min max : List UInt8) (offset : ℕ) (limit : ℤ)
    (gt lt descending : Bool) : Prop :=
  ∃ ids : List ℕ, (∀ id, id ∈ ids ↔ ∃ key, LiveKey s key id ∧ InRange min max gt lt key) ∧
    ids.Pairwise (KeyBefore s descending) ∧
    rangeCursorIds s min max offset limit gt lt descending = some (limited limit (ids.drop offset))

/-- The bound is short enough for its length in bits, and no bit that decides is skipped on its
way. -/
structure Followed (s : GrnPat) (b : List UInt8) : Prop where
  short : b.length < 2 ^ 27
  skips : SkipsNothing s b

/-- The cursor may skip `offset` records: it starts with `GRN_ID_MAX` of them, and one of these
is used up for the far bound. -/
def MaySkip (s : GrnPat) (min max : List UInt8) (offset : ℕ) (gt lt descending : Bool) : Prop :=
  (if descending then min else max) = [] ∨ offset < grnIdMax ∨
    ∀ ids : List ℕ, ids.Nodup → (∀ id ∈ ids, ∃ key, LiveKey s key id ∧ InRange min max gt lt key) →
      ids.length < grnIdMax

/-! ## A cursor with an end -/

variable {s : GrnPat} {t : Trie ℕ} {own : ℕ → ℕ} {free : ℕ → List ℕ} {lost : Finset ℕ}
  {descending : Bool} {min max : List UInt8} {gt lt : Bool} {i : ℕ}

/-- The test for the first record compares the keys. -/
theorem isBehindTail_iff {c : KeyCursor} (hne : s.keyOf c.tail ≠ s.keyOf i) :
    isBehindTail s c i = true ↔ KeyBefore s c.descending c.tail i := by
  obtain ⟨a, ha⟩ : ∃ a, s.keyOf (if c.descending then c.tail else i) = a := ⟨_, rfl⟩
  obtain ⟨b, hb⟩ : ∃ b, s.keyOf (if c.descending then i else c.tail) = b := ⟨_, rfl⟩
  have hbefore : KeyBefore s c.descending c.tail i ↔ b < a := by
    rw [← ha, ← hb]
    cases c.descending <;> rfl
  have hab : a ≠ b := by
    rw [← ha, ← hb]
    cases c.descending
    · exact hne.symm
    · exact hne
  rw [isBehindTail, hbefore]
  simp only [ha, hb]
  split_ifs with hlen
  · rw [decide_eq_true_iff, take_lt_iff hlen.le]
  · rw [Bool.not_eq_true', decide_eq_false_iff_not, take_lt_iff (Nat.not_lt.mp hlen),
      not_lt_iff_or_eq]
    exact or_iff_left hab

/-- **What a cursor with an end has ahead**: the records on its stack up to the end. Before the
first call, the end may be no record of the stack; then all of them are behind it. -/
def KeyCursor.AheadTo (s : GrnPat) (c : KeyCursor) (ids : List ℕ) : Prop :=
  c.tail ≠ 0 ∧ ∃ ts, Stacked s.nodes s.words c.ss ts ∧ linkCounts ts ≤ 2 * s.currRec + 2 ∧
    (∀ t ∈ ts, t.inner.card ≤ s.currRec) ∧
    ((ids = [] ∧ (inOrders c.descending ts = [] ∨
        c.currRec = 0 ∧ ∀ i ∈ inOrders c.descending ts, i ≠ c.tail ∧ isBehindTail s c i = true)) ∨
      ∃ before after, inOrders c.descending ts = before ++ c.tail :: after ∧
        ids = before ++ [c.tail] ∧
        ∀ i ∈ before, i ≠ c.tail ∧ (c.currRec = 0 → isBehindTail s c i = false))

/-- The next record of a cursor with an end. -/
theorem takesFirst_aheadTo (s : GrnPat) : TakesFirst s (KeyCursor.AheadTo s) := by
  rintro c ids ⟨htail, ts, hstack, hcounts, hcards, hcase⟩ hrest
  rw [grnPatCursorNextByKey, if_neg hrest]
  rcases @nextByKeyLoop_first s s.words ts (2 * s.currRec + 3) c hstack (by omega) hcounts hcards with
    ⟨hnil, hnext⟩ | ⟨id, ss', ts', hid, hcons, hstack', hcounts', hcards', hnext⟩
  · rw [hnil] at hcase
    rcases hcase with ⟨rfl, -⟩ | ⟨before, after, happend, -, -⟩
    · exact ⟨0, _, hnext, ⟨htail, [], .nil, Nat.zero_le _, by simp, .inl ⟨rfl, .inl rfl⟩⟩,
        .inl ⟨rfl, rfl, rfl⟩⟩
    · exact absurd happend.symm (by simp)
  · rw [hcons] at hcase
    rcases hcase with ⟨rfl, hall⟩ | ⟨before, after, happend, rfl, hbefore⟩
    · -- the range is empty
      obtain ⟨hfirst, hall⟩ := hall.resolve_left (List.cons_ne_nil _ _)
      obtain ⟨hne, hbehind⟩ := hall id (List.mem_cons_self ..)
      rw [if_neg hne, if_pos ⟨hfirst, htail, hbehind⟩] at hnext
      exact ⟨0, _, hnext, ⟨htail, [], .nil, Nat.zero_le _, by simp, .inl ⟨rfl, .inl rfl⟩⟩,
        .inl ⟨rfl, rfl, rfl⟩⟩
    · rcases before with _ | ⟨x, before⟩
      · -- the end itself
        obtain ⟨rfl, -⟩ := List.cons.inj happend
        rw [if_pos rfl] at hnext
        exact ⟨_, _, hnext, ⟨htail, [], .nil, Nat.zero_le _, by simp, .inl ⟨rfl, .inl rfl⟩⟩,
          .inr ⟨htail, rfl, rfl⟩⟩
      · obtain ⟨rfl, hrest'⟩ := List.cons.inj happend
        obtain ⟨hne, hbehind⟩ := hbefore id (List.mem_cons_self ..)
        rw [if_neg hne, if_neg fun h => by simp [hbehind h.1] at h] at hnext
        refine ⟨_, _, hnext, ⟨htail, ts', hstack', hcounts', hcards', .inr ⟨before, after, hrest', rfl,
          fun i hi => ⟨(hbefore i (List.mem_cons_of_mem _ hi)).1, fun hzero => absurd hzero hid⟩⟩⟩,
          .inr ⟨hid, rfl, rfl⟩⟩

/-! ## The stacks of a range -/

/-- The bound that a cursor starts at. -/
def startBound (min max : List UInt8) (descending : Bool) : List UInt8 :=
  if descending then max else min

/-- The key is in the range as far as the bound says that a cursor starts at. -/
def Starts (min max : List UInt8) (gt lt descending : Bool) (key : List UInt8) : Prop :=
  startBound min max descending = [] ∨
    PastBound descending (if descending then lt else gt) (startBound min max descending) key

instance (min max : List UInt8) (gt lt descending : Bool) (key : List UInt8) :
    Decidable (Starts min max gt lt descending key) :=
  inferInstanceAs (Decidable (_ ∨ _))

theorem inRange_iff {key : List UInt8} : InRange min max gt lt key ↔
    Starts min max gt lt descending key ∧ Starts min max gt lt (!descending) key := by
  cases descending
  · rfl
  · exact and_comm

/-- The way of a bound. -/
theorem Inv.setCursorLoop_spec (h : Inv s t own free lost) {b : List UInt8} {strict : Bool}
    {onLeaf : List UInt8 → Bool} (hb : b ≠ []) (hfollowed : Followed s b)
    (honLeaf : ∀ k, onLeaf k = true ↔ PastBound descending strict b k) :
    ∃ ss ts, setCursorLoop s b (int32 (b.length * 16)) descending onLeaf (s.currRec + 1)
        (s.load .root) (-1) [] = some ss ∧
      Remains s descending t (fun j => decide (PastBound descending strict b (s.keyOf j))) ss ts := by
  have hlen : 0 < b.length := List.length_pos_iff.mpr hb
  obtain ⟨es, ts, hloop, hremains⟩ := @Pat.setCursorLoop_spec b s t descending strict onLeaf
    (s.currRec + 1) (s.load .root) (-1) h.rooted.linked h.rooted.wf (fun j hj => h.keyOf_ne_nil hj)
    (Nat.lt_succ_of_le h.card_inner_le) hb hfollowed.skips honLeaf le_rfl (by omega) .root
    (fun j _ p hp => absurd hp (by omega)) []
  have hbits : int32 (b.length * 16) = (b.length * 16 : ℕ) := (int32_eq hfollowed.short).1
  rw [List.append_nil] at hloop
  exact ⟨es, ts, by rw [hbits]; exact hloop, hremains⟩

theorem Inv.setCursor_spec (h : Inv s t own free lost)
    (hb : startBound min max descending ≠ []) (hfollowed : Followed s (startBound min max descending)) :
    ∃ ss ts, setCursor s min max gt lt descending = some ss ∧
      Remains s descending t (fun j => decide (Starts min max gt lt descending (s.keyOf j))) ss ts := by
  have hsame : (fun j => decide (Starts min max gt lt descending (s.keyOf j))) = fun j =>
      decide (PastBound descending (if descending then lt else gt) (startBound min max descending)
        (s.keyOf j)) := by
    funext j
    exact decide_eq_decide.mpr (or_iff_right hb)
  rw [hsame]
  cases descending with
  | false =>
    have hset : setCursor s min max gt lt false = setCursorAscend s min gt := if_neg Bool.false_ne_true
    rw [hset]
    simp only [startBound, Bool.false_eq_true, if_false] at hb hfollowed ⊢
    exact h.setCursorLoop_spec hb hfollowed fun k => ascendKeeps_iff gt
  | true =>
    have hset : setCursor s min max gt lt true = setCursorDescend s max lt := if_pos rfl
    rw [hset]
    simp only [startBound, if_true] at hb hfollowed ⊢
    exact h.setCursorLoop_spec hb hfollowed fun k => descendKeeps_iff lt

/-- **The stack at the near bound** holds the records from there on. -/
theorem Inv.openStack_spec (h : Inv s t own free lost)
    (hfollowed : startBound min max descending ≠ [] → Followed s (startBound min max descending)) :
    ∃ ss ts, openStack s min max gt lt descending = some ss ∧
      Remains s descending t (fun j => decide (Starts min max gt lt descending (s.keyOf j))) ss ts := by
  by_cases hb : startBound min max descending = []
  · -- all records, from the children of the first node on
    have hall : ∀ t' : Trie ℕ, ∀ j ∈ t'.leaves,
        decide (Starts min max gt lt descending (s.keyOf j)) = true :=
      fun _ _ _ => decide_eq_true (.inl hb)
    have hopen : openStack s min max gt lt descending = some (grnPatCursorPush s descending) :=
      if_pos hb
    rw [hopen]
    have hlinked := h.rooted.linked
    have hwf := h.rooted.wf
    rw [← load_eq] at hlinked
    cases t with
    | nil =>
      have hzero : s.load .root = 0 := hlinked
      refine ⟨_, [], rfl, ?_⟩
      rw [grnPatCursorPush, if_pos hzero]
      exact .none fun j hj => absurd hj (Multiset.notMem_zero j)
    | leaf j =>
      exact absurd ((Int.natCast_nonneg _).trans hlinked.2.2) (by omega)
    | node j c child =>
      obtain ⟨hroot, hne, hcheck, hchild⟩ := hlinked
      refine ⟨_, [child descending] ++ [child !descending], rfl, ?_⟩
      simp only [grnPatCursorPush, hroot, if_neg hne, hcheck]
      exact Remains.node (.one (hchild _) (hwf.2.2 _).2 (hall _)) (.one (hchild _) (hwf.2.2 _).2 (hall _))
  · have hopen : openStack s min max gt lt descending = setCursor s min max gt lt descending :=
      if_neg hb
    rw [hopen]
    exact h.setCursor_spec hb (hfollowed hb)

/-! ## The records of a range -/

/-- The live records in the order of a cursor, and the part of them in a range. -/
def rangeIds (s : GrnPat) (t : Trie ℕ) (min max : List UInt8) (gt lt descending : Bool) : List ℕ :=
  ((t.inOrder descending).filter fun j => decide (Starts min max gt lt descending (s.keyOf j))).filter
    fun j => decide (Starts min max gt lt (!descending) (s.keyOf j))

theorem mem_rangeIds : i ∈ rangeIds s t min max gt lt descending ↔
    i ∈ t.leaves ∧ InRange min max gt lt (s.keyOf i) := by
  rw [rangeIds, List.mem_filter, List.mem_filter, mem_inOrder, decide_eq_true_iff, decide_eq_true_iff,
    @inRange_iff descending, and_assoc]

theorem keyBefore_not {a b : ℕ} : KeyBefore s (!descending) a b ↔ KeyBefore s descending b a := by
  cases descending <;> rfl

theorem KeyBefore.asymm {a b : ℕ} (h : KeyBefore s descending a b) : ¬ KeyBefore s descending b a := by
  cases descending
  · exact fun h' => List.lt_asymm h h'
  · exact fun h' => List.lt_asymm h h'

/-- A bound lets everything in that is behind what it lets in. -/
theorem Starts.of_before {a b : ℕ} (h : Starts min max gt lt descending (s.keyOf a))
    (hab : KeyBefore s descending a b) : Starts min max gt lt descending (s.keyOf b) := by
  refine h.imp_right fun hpast => .inl ?_
  cases descending
  · rcases hpast with hlt | ⟨-, heq⟩
    · exact List.lt_trans hlt hab
    · exact heq ▸ hab
  · rcases hpast with hlt | ⟨-, heq⟩
    · exact List.lt_trans hab hlt
    · exact heq ▸ hab

namespace Inv

theorem pairwise_inOrder (h : Inv s t own free lost) (descending : Bool) :
    (t.inOrder descending).Pairwise (KeyBefore s descending) := by
  have hne : ∀ j ∈ t.inOrder descending, s.keyOf j ≠ [] := fun j hj =>
    h.keyOf_ne_nil (mem_ids.mpr (.inr (mem_inOrder.mp hj)))
  exact (h.rooted.wf.pairwise_inOrder descending).imp_of_mem fun ha hb hab =>
    (keyBefore_iff (hne _ ha) (hne _ hb)).mp hab

/-- Two live records are in order. -/
theorem keyBefore_or (h : Inv s t own free lost) (descending : Bool) {a b : ℕ} (ha : a ∈ t.leaves)
    (hb : b ∈ t.leaves) (hne : a ≠ b) : KeyBefore s descending a b ∨ KeyBefore s descending b a := by
  have hboth : (t.inOrder descending).Pairwise fun a b =>
      KeyBefore s descending a b ∨ KeyBefore s descending b a :=
    (h.pairwise_inOrder descending).imp .inl
  have : Std.Symm fun a b => KeyBefore s descending a b ∨ KeyBefore s descending b a := ⟨fun _ _ => Or.symm⟩
  exact hboth.forall (mem_inOrder.mpr ha) (mem_inOrder.mpr hb) hne

theorem cards_of_remains (h : Inv s t own free lost) {keep : ℕ → Bool} {ss : List CursorEntry}
    {ts : List (Trie ℕ)} (hremains : Remains s descending t keep ss ts) :
    linkCounts ts ≤ 2 * s.currRec + 2 ∧ ∀ t ∈ ts, t.inner.card ≤ s.currRec := by
  have hcard := h.card_inner_le
  have hcounts : linkCounts ts ≤ 2 * t.inner.card + 1 := hremains.counts
  refine ⟨by omega, fun t' ht' => ?_⟩
  have hle : linkCount t' ≤ linkCounts ts :=
    List.single_le_sum (fun _ _ => Nat.zero_le _) _ (List.mem_map.mpr ⟨t', ht', rfl⟩)
  have hcount : linkCount t' = 2 * t'.inner.card + 1 := rfl
  omega

/-- **The record at the far bound**: the last live one that the bound lets in. -/
theorem openTail_spec (h : Inv s t own free lost) (hb : startBound min max (!descending) ≠ [])
    (hfollowed : Followed s (startBound min max (!descending))) :
    ∃ tail rest, openTail s min max gt lt descending = some ⟨0, tail, rest, [], descending⟩ ∧
      (tail = 0 ∧ (∀ i ∈ t.leaves, ¬ Starts min max gt lt (!descending) (s.keyOf i)) ∨
        tail ≠ 0 ∧ rest = grnIdMax - 1 ∧ tail ∈ t.leaves ∧
          Starts min max gt lt (!descending) (s.keyOf tail) ∧
          ∀ i ∈ t.leaves, Starts min max gt lt (!descending) (s.keyOf i) →
            i = tail ∨ KeyBefore s descending i tail) := by
  have hfar : (if descending then min else max) ≠ [] := by
    cases descending
    · exact hb
    · exact hb
  obtain ⟨ss, ts, hset, hremains⟩ := @Inv.setCursor_spec s t own free lost (!descending) min max gt lt h
    hb hfollowed
  obtain ⟨hcounts, hcards⟩ := h.cards_of_remains hremains
  have hordered : (inOrders (!descending) ts).Pairwise (KeyBefore s !descending) := by
    rw [hremains.order]
    exact (h.pairwise_inOrder _).filter _
  have hmem : ∀ i, i ∈ inOrders (!descending) ts ↔
      i ∈ t.leaves ∧ Starts min max gt lt (!descending) (s.keyOf i) := fun i => by
    rw [hremains.order, List.mem_filter, mem_inOrder, decide_eq_true_iff]
  have hrest : grnIdMax ≠ 0 := by decide
  rw [openTail, if_neg hfar, hset, Option.bind_some, grnPatCursorNextByKey, if_neg hrest]
  rcases @nextByKeyLoop_first s s.words ts (2 * s.currRec + 3)
    ⟨0, 0, grnIdMax, ss, !descending⟩ hremains.stacked (by omega) hcounts hcards with
    ⟨hnil, hnext⟩ | ⟨id, ss', ts', hid, hcons, -, -, -, hnext⟩
  · refine ⟨0, grnIdMax, by rw [hnext]; rfl, .inl ⟨rfl, fun i hi hstart => ?_⟩⟩
    have hin := (hmem i).mpr ⟨hi, hstart⟩
    rw [hnil] at hin
    exact List.not_mem_nil hin
  · rw [if_neg hid, if_neg fun h => h.2.1 rfl] at hnext
    have hcons : inOrders (!descending) ts = id :: inOrders (!descending) ts' := hcons
    rw [hcons] at hordered hmem
    obtain ⟨hleaf, hstart⟩ := (hmem id).mp (List.mem_cons_self ..)
    refine ⟨id, grnIdMax - 1, by rw [hnext]; rfl, .inr ⟨hid, rfl, hleaf, hstart, fun i hi hstart' => ?_⟩⟩
    rcases List.mem_cons.mp ((hmem i).mpr ⟨hi, hstart'⟩) with rfl | hlater
    · exact .inl rfl
    · exact .inr (keyBefore_not.mp (List.rel_of_pairwise_cons hordered hlater))

/-- **A cursor with an end** has the range ahead. -/
theorem aheadTo_rangeIds (h : Inv s t own free lost) {ss : List CursorEntry} {ts : List (Trie ℕ)}
    {tail rest : ℕ}
    (hremains : Remains s descending t (fun j => decide (Starts min max gt lt descending (s.keyOf j))) ss ts)
    (hne : tail ≠ 0) (hleaf : tail ∈ t.leaves) (hstart : Starts min max gt lt (!descending) (s.keyOf tail))
    (hlast : ∀ i ∈ t.leaves, Starts min max gt lt (!descending) (s.keyOf i) →
      i = tail ∨ KeyBefore s descending i tail) :
    KeyCursor.AheadTo s ⟨0, tail, rest, ss, descending⟩ (rangeIds s t min max gt lt descending) := by
  obtain ⟨hcounts, hcards⟩ := h.cards_of_remains hremains
  have hordered : (inOrders descending ts).Pairwise (KeyBefore s descending) := by
    rw [hremains.order]
    exact (h.pairwise_inOrder _).filter _
  have hmem : ∀ i, i ∈ inOrders descending ts ↔
      i ∈ t.leaves ∧ Starts min max gt lt descending (s.keyOf i) := fun i => by
    rw [hremains.order, List.mem_filter, mem_inOrder, decide_eq_true_iff]
  -- the far bound lets in what is before the end, and nothing behind it
  have hfar : ∀ i ∈ t.leaves, i ≠ tail →
      (Starts min max gt lt (!descending) (s.keyOf i) ↔ KeyBefore s descending i tail) := by
    intro i hi hitail
    refine ⟨fun hi' => (hlast i hi hi').resolve_left hitail, fun hbefore => ?_⟩
    exact hstart.of_before (keyBefore_not.mpr hbefore)
  have hkeys : ∀ i ∈ t.leaves, i ≠ tail → s.keyOf tail ≠ s.keyOf i := by
    intro i hi hitail hsame
    rcases h.keyBefore_or descending hi hleaf hitail with hbefore | hbefore
    · rw [KeyBefore, hsame] at hbefore
      cases descending <;> exact List.lt_irrefl _ hbefore
    · rw [KeyBefore, hsame] at hbefore
      cases descending <;> exact List.lt_irrefl _ hbefore
  have hbehind : ∀ i ∈ t.leaves, i ≠ tail →
      (isBehindTail s ⟨0, tail, rest, ss, descending⟩ i = true ↔ ¬ KeyBefore s descending i tail) := by
    intro i hi hitail
    rw [isBehindTail_iff (hkeys i hi hitail)]
    refine ⟨KeyBefore.asymm, fun hnot => ?_⟩
    exact (h.keyBefore_or descending hi hleaf hitail).resolve_left hnot
  refine ⟨hne, ts, hremains.stacked, hcounts, hcards, ?_⟩
  rw [rangeIds, ← hremains.order]
  by_cases hin : tail ∈ inOrders descending ts
  · obtain ⟨before, after, hsplit⟩ := List.append_of_mem hin
    refine .inr ⟨before, after, hsplit, ?_, fun i hi => ?_⟩
    · rw [hsplit] at hordered hmem ⊢
      obtain ⟨-, hafter, hbefore⟩ := List.pairwise_append.mp hordered
      rw [List.filter_append, List.filter_cons, if_pos (decide_eq_true hstart),
        List.filter_eq_self.mpr fun i hi => ?_, List.filter_eq_nil_iff.mpr fun i hi => ?_]
      · have hi' := (hmem i).mp (List.mem_append.mpr (.inr (List.mem_cons_of_mem _ hi)))
        have htail := List.rel_of_pairwise_cons hafter hi
        have hitail : i ≠ tail := fun heq => htail.asymm (heq ▸ htail)
        rw [decide_eq_true_iff, hfar i hi'.1 hitail]
        exact htail.asymm
      · have hi' := (hmem i).mp (List.mem_append.mpr (.inl hi))
        have htail := hbefore i hi tail (List.mem_cons_self ..)
        have hitail : i ≠ tail := fun heq => htail.asymm (heq ▸ htail)
        rw [decide_eq_true_iff, hfar i hi'.1 hitail]
        exact htail
    · rw [hsplit] at hordered hmem
      have htail := (List.pairwise_append.mp hordered).2.2 i hi tail (List.mem_cons_self ..)
      have hitail : i ≠ tail := fun heq => htail.asymm (heq ▸ htail)
      have hi' := (hmem i).mp (List.mem_append.mpr (.inl hi))
      refine ⟨hitail, fun _ => ?_⟩
      rw [← Bool.not_eq_true, hbehind i hi'.1 hitail, not_not]
      exact htail
  · -- the end is before the whole stack
    have hnot : ∀ i ∈ inOrders descending ts, i ≠ tail ∧ ¬ KeyBefore s descending i tail := by
      intro i hi
      have hi' := (hmem i).mp hi
      exact ⟨fun heq => hin (heq ▸ hi), fun hbefore =>
        hin ((hmem tail).mpr ⟨hleaf, hi'.2.of_before hbefore⟩)⟩
    refine .inl ⟨List.filter_eq_nil_iff.mpr fun i hi => ?_, .inr ⟨rfl, fun i hi => ?_⟩⟩
    · rw [decide_eq_true_iff, hfar i ((hmem i).mp hi).1 (hnot i hi).1]
      exact (hnot i hi).2
    · exact ⟨(hnot i hi).1, (hbehind i ((hmem i).mp hi).1 (hnot i hi).1).mpr (hnot i hi).2⟩

/-- **The ids of a range** are what the cursor returns. -/
theorem rangeCursorIds_eq (h : Inv s t own free lost) {offset : ℕ} {limit : ℤ}
    (hmin : min ≠ [] → Followed s min) (hmax : max ≠ [] → Followed s max)
    (hskip : MaySkip s min max offset gt lt descending) :
    rangeCursorIds s min max offset limit gt lt descending =
      some (limited limit ((rangeIds s t min max gt lt descending).drop offset)) := by
  have hfollowed : ∀ d, startBound min max d ≠ [] → Followed s (startBound min max d) := fun d => by
    cases d
    · exact hmin
    · exact hmax
  have hfar : (if descending then min else max) = startBound min max !descending := by
    cases descending <;> rfl
  set ids := rangeIds s t min max gt lt descending with hids
  have hnodup : ids.Nodup := by
    refine List.Pairwise.imp (fun hab hsame => ?_)
      (((h.pairwise_inOrder descending).filter _).filter _ : ids.Pairwise (KeyBefore s descending))
    exact hab.asymm (hsame ▸ hab)
  have hlength : ids.length ≤ s.currRec :=
    h.length_le_of_live hnodup fun i hi => (mem_rangeIds.mp hi).1
  obtain ⟨ss, ts, hopen, hremains⟩ := @Inv.openStack_spec s t own free lost descending min max gt lt h
    (hfollowed descending)
  obtain ⟨hcounts, hcards⟩ := h.cards_of_remains hremains
  rw [rangeCursorIds, grnPatCursorOpenByKey, hfar]
  by_cases hb : startBound min max (!descending) = []
  · -- no far bound
    have hall : ids = inOrders descending ts := by
      rw [hids, rangeIds, ← hremains.order, List.filter_eq_self]
      exact fun i _ => decide_eq_true (.inl hb)
    have hidsWith := @idsWith_eq s s.words ts ss descending hremains.stacked hcounts hcards
      (hall ▸ hlength) h.accounts.currRec_le offset limit
    have htail : openTail s min max gt lt descending = some ⟨0, 0, grnIdMax, [], descending⟩ := by
      rw [openTail, hfar, if_pos hb]
    rw [htail, Option.bind_some, if_neg fun hc => hc.1 hb, hopen, Option.bind_some, hall]
    exact hidsWith
  · obtain ⟨tail, rest, htail, hcase⟩ := @openTail_spec s t own free lost descending min max gt lt h hb
      (hfollowed _ hb)
    rw [htail, Option.bind_some]
    rcases hcase with ⟨rfl, hnone⟩ | ⟨hne, hrest, hleaf, hstart, hlast⟩
    · -- no record is inside the far bound
      have hnil : ids = [] := by
        rw [List.eq_nil_iff_forall_not_mem]
        intro i hi
        rw [hids, rangeIds, List.mem_filter, List.mem_filter, mem_inOrder] at hi
        exact hnone i hi.1.1 (of_decide_eq_true hi.2)
      have hempty : (⟨0, 0, rest, [], descending⟩ : KeyCursor).Ahead s s.words [] :=
        ⟨rfl, [], .nil, rfl, Nat.zero_le _, by simp⟩
      have htakes : TakesFirst s (KeyCursor.Ahead s s.words) := fun c ids hc hrest => by
        obtain ⟨id, c', hnext, hahead', -, hcase⟩ := grnPatCursorNextByKey_spec hc hrest
        exact ⟨id, c', hnext, hahead', hcase⟩
      rw [if_pos ⟨hb, rfl⟩, Option.bind_some, hnil]
      exact htakes.opened hempty (fun c ids rest hc => ⟨hc.tail, hc.stack⟩) (.inl (Nat.zero_le _))
        (Nat.zero_le _) h.accounts.currRec_le
    · have hahead := @aheadTo_rangeIds s t own free lost descending min max gt lt h ss ts tail rest hremains
        hne hleaf hstart hlast
      rw [if_neg fun hc => hne hc.2, hopen, Option.bind_some]
      refine (takesFirst_aheadTo s).opened hahead (fun c ids rest hc => hc) ?_ hlength
        h.accounts.currRec_le
      -- one of the records is used up for the end
      rcases hskip with hnone | hoffset | hfewer
      · exact absurd (hfar ▸ hnone) hb
      · exact .inr (hrest ▸ Nat.le_sub_one_of_lt hoffset)
      · refine .inl (hrest ▸ Nat.le_sub_one_of_lt (hfewer ids hnodup fun i hi => ?_))
        obtain ⟨hlive, hrange⟩ := mem_rangeIds.mp hi
        exact ⟨_, h.liveKey_iff.mpr ⟨hlive, rfl⟩, hrange⟩

/-- **The cursor lists the range** in every table that the bounds are followed in. -/
theorem listsRange (h : Inv s t own free lost) {offset : ℕ} {limit : ℤ}
    (hmin : min ≠ [] → Followed s min) (hmax : max ≠ [] → Followed s max)
    (hskip : MaySkip s min max offset gt lt descending) :
    ListsRange s min max offset limit gt lt descending := by
  refine ⟨rangeIds s t min max gt lt descending, fun id => ?_, ?_,
    h.rangeCursorIds_eq hmin hmax hskip⟩
  · rw [mem_rangeIds]
    constructor
    · exact fun hid => ⟨_, h.liveKey_iff.mpr ⟨hid.1, rfl⟩, hid.2⟩
    · rintro ⟨key, hlive, hrange⟩
      obtain ⟨hid, rfl⟩ := h.liveKey_iff.mp hlive
      exact ⟨hid, hrange⟩
  · exact ((h.pairwise_inOrder descending).filter _).filter _

end Inv

/-- **A range cursor in every run** of a table: it lists the range if the bounds are followed
and the offset may be skipped. -/
theorem listsRange_runOps (isKeyLarge : Bool) (cacheSize : ℕ) (ops : List Op) (min max : List UInt8)
    (offset : ℕ) (limit : ℤ) (gt lt descending : Bool)
    (hmin : min ≠ [] → Followed (runOps (grnPatCreate isKeyLarge cacheSize) ops) min)
    (hmax : max ≠ [] → Followed (runOps (grnPatCreate isKeyLarge cacheSize) ops) max)
    (hskip : MaySkip (runOps (grnPatCreate isKeyLarge cacheSize) ops) min max offset gt lt descending) :
    ListsRange (runOps (grnPatCreate isKeyLarge cacheSize) ops) min max offset limit gt lt
      descending := by
  obtain ⟨t, own, free, lost, hinv⟩ := (inv_grnPatCreate isKeyLarge cacheSize).runOps ops
  exact hinv.listsRange hmin hmax hskip

/-! ## Tables in which nothing is skipped -/

/-- The branches of a table with the ids up to `n`. -/
theorem Branch.le {n id : ℕ} {c : ℤ} (h : Branch s c id) (hroot : s.load .root ≤ n)
    (hlinks : ∀ i ≤ n, ∀ d, (s.nodes i).lr d ≤ n) :
    id ≤ n ∧ (c = -1 ∧ id = s.load .root ∨ ∃ i ≤ n, c = (s.nodes i).check) := by
  induction h with
  | root _ => exact ⟨hroot, .inl ⟨rfl, rfl⟩⟩
  | child d _ _ _ ih => exact ⟨hlinks _ ih.1 d, .inr ⟨_, ih.1, rfl⟩⟩

/-- Without an odd check right behind another one, nothing is skipped for any bound. -/
theorem skipsNothing_of_checks {n : ℕ} (hroot : s.load .root ≤ n)
    (hlinks : ∀ i ≤ n, ∀ d, (s.nodes i).lr d ≤ n) (hfirst : (s.nodes (s.load .root)).check ≠ 1)
    (hchecks : ∀ i ≤ n, ∀ j ≤ n, (s.nodes i).check % 2 = 1 →
      (s.nodes j).check ≠ (s.nodes i).check + 2) (b : List UInt8) : SkipsNothing s b := by
  intro c id hbranch hodd hnext
  obtain ⟨hid, ⟨rfl, rfl⟩ | ⟨i, hi, rfl⟩⟩ := hbranch.le hroot hlinks
  · exact absurd (by omega) hfirst
  · exact absurd (by omega) (hchecks i hi id hid (by omega))

theorem listsRange_runOps_two :
    ListsRange (runOps (grnPatCreate false 0) [.call (.add [97]), .call (.add [97, 98])]) [97] [97, 98]
      0 (-1) true false true := by
  have hfollowed : ∀ b : List UInt8, b.length < 2 ^ 27 →
      Followed (runOps (grnPatCreate false 0) [.call (.add [97]), .call (.add [97, 98])]) b :=
    fun b hb => ⟨hb, @skipsNothing_of_checks _ 2 (by decide +kernel) (by decide +kernel)
      (by decide +kernel) (by decide +kernel) b⟩
  exact listsRange_runOps false 0 [.call (.add [97]), .call (.add [97, 98])] [97] [97, 98] 0 (-1) true
    false true (fun _ => hfollowed [97] (by decide)) (fun _ => hfollowed [97, 98] (by decide))
    (.inr (.inl (by decide)))

/-- After "ab" and "a", a deletion of "ab" leaves nothing behind the branch of "a" on the one
side. "ac" comes there with the check behind, 17, and the first bit of the second byte is never
compared: "ad" is listed from a bound on that is greater. -/
theorem not_listsRange :
    ¬ ∀ (isKeyLarge : Bool) (cacheSize : ℕ) (ops : List Op) (min max : List UInt8) (offset : ℕ)
      (limit : ℤ) (gt lt descending : Bool),
      ListsRange (runOps (grnPatCreate isKeyLarge cacheSize) ops) min max offset limit gt lt
        descending := by
  intro h
  obtain ⟨ids, hmem, -, hids⟩ := h false 0
    [.call (.add [97, 98]), .call (.add [97]), .call (.delete [97, 98]), .call (.add [97, 99]),
      .call (.add [97, 100])] [97, 0xe0] [] 0 (-1) false false false
  have hlisted : rangeCursorIds (runOps (grnPatCreate false 0)
      [.call (.add [97, 98]), .call (.add [97]), .call (.delete [97, 98]), .call (.add [97, 99]),
        .call (.add [97, 100])]) [97, 0xe0] [] 0 (-1) false false false = some [4] := by
    decide +kernel
  have hin : 4 ∈ ids := by
    have hall := Option.some.inj (hids.symm.trans hlisted)
    rw [List.drop_zero] at hall
    have hall : ids = [4] := hall
    rw [hall]
    exact List.mem_singleton_self 4
  obtain ⟨key, hlive, hrange⟩ := (hmem 4).mp hin
  obtain ⟨t, own, free, lost, hinv⟩ := (inv_grnPatCreate false 0).runOps
    [.call (.add [97, 98]), .call (.add [97]), .call (.delete [97, 98]), .call (.add [97, 99]),
      .call (.add [97, 100])]
  obtain ⟨-, rfl⟩ := hinv.liveKey_iff.mp hlive
  have hkey : (runOps (grnPatCreate false 0) [.call (.add [97, 98]), .call (.add [97]),
      .call (.delete [97, 98]), .call (.add [97, 99]), .call (.add [97, 100])]).keyOf 4 = [97, 100] := by
    decide +kernel
  rw [hkey] at hrange
  have hpast := hrange.1.resolve_left (List.cons_ne_nil _ _)
  exact absurd hpast (by decide)

end Groonga.Pat
