import Groonga.Lib.PatriciaOrder
import Groonga.Pat.Cursor
import Mathlib

/-!
# The cursor by key

A cursor by key keeps a stack of links. Each entry of the stack is a part of the tree whose
records are still to come: the link to it, and the check of the node that the link comes
from. `grn_pat_cursor_next` takes the top entry, goes down to its first record and leaves
the other sides of the way on the stack.

How the stack is filled when the cursor is opened depends on the flags; what the cursor
returns after that only depends on the trees on the stack.
-/

namespace Groonga.Pat

open Lib.Patricia Lib.Patricia.Trie

/-! ## The cursor -/

/-- `grn_pat_cursor_entry`. -/
structure CursorEntry where
  id : ℕ
  check : ℕ

/-- `grn_pat_cursor`, the part of a cursor by key. The top of the stack is the head of
`ss`. -/
structure KeyCursor where
  currRec : ℕ
  tail : ℕ
  rest : ℕ
  ss : List CursorEntry
  descending : Bool

/-- The inner loop of `grn_pat_cursor_next`: the first record behind the link `id` of a node
with the check `check`, 0 if there is none, and the stack. -/
def leafLoop (s : GrnPat) (descending : Bool) :
    ℕ → ℕ → ℕ → List CursorEntry → Option (ℕ × List CursorEntry)
  | 0, _, _, _ => none
  | fuel + 1, id, check, ss =>
    if id = 0 then some (0, ss)
    else
      let node := s.nodes id
      if check < node.check then
        leafLoop s descending fuel (node.lr descending) node.check
          (⟨node.lr !descending, node.check⟩ :: ss)
      else some (id, ss)

/-- The test of `grn_pat_cursor_next` whether the record `id` is behind the end of the
range. -/
def isBehindTail (s : GrnPat) (c : KeyCursor) (id : ℕ) : Bool :=
  let kmin := s.keyOf (if c.descending then c.tail else id)
  let kmax := s.keyOf (if c.descending then id else c.tail)
  if kmin.length < kmax.length then decide (kmax.take kmin.length < kmin)
  else !decide (kmin.take kmax.length < kmax)

/-- The outer loop of `grn_pat_cursor_next`. -/
def nextByKeyLoop (s : GrnPat) : ℕ → KeyCursor → Option (ℕ × KeyCursor)
  | 0, _ => none
  | fuel + 1, c =>
    match c.ss with
    | [] => some (0, c)
    | se :: ss =>
      (leafLoop s c.descending (s.currRec + 1) se.id se.check ss).bind fun r =>
        let c := { c with ss := r.2 }
        if r.1 = 0 then nextByKeyLoop s fuel c
        else if r.1 = c.tail then
          some (r.1, { c with ss := [], currRec := r.1, rest := c.rest - 1 })
        else if c.currRec = 0 ∧ c.tail ≠ 0 ∧ isBehindTail s c r.1 then
          nextByKeyLoop s fuel { c with ss := [] }
        else some (r.1, { c with currRec := r.1, rest := c.rest - 1 })

/-- `grn_pat_cursor_next` of a cursor by key: `GRN_ID_NIL` at the end. -/
def grnPatCursorNextByKey (s : GrnPat) (c : KeyCursor) : Option (ℕ × KeyCursor) :=
  if c.rest = 0 then some (0, c) else nextByKeyLoop s (2 * s.currRec + 3) c

/-- `while (offset--) { grn_pat_cursor_next(ctx, c); }`. -/
def skipByKey (s : GrnPat) : ℕ → KeyCursor → Option KeyCursor
  | 0, c => some c
  | offset + 1, c => (grnPatCursorNextByKey s c).bind fun r => skipByKey s offset r.2

/-- The end of `grn_pat_cursor_open`, with the stack that is filled before. -/
def openWith (s : GrnPat) (ss : List CursorEntry) (offset : ℕ) (limit : ℤ) (descending : Bool) :
    Option KeyCursor :=
  (skipByKey s offset ⟨0, 0, grnIdMax, ss, descending⟩).map fun c =>
    { c with rest := if limit < 0 then grnIdMax else limit.toNat }

/-- The ids that a cursor returns until `GRN_ID_NIL`. -/
def idsByKeyLoop (s : GrnPat) : ℕ → KeyCursor → Option (List ℕ)
  | 0, _ => none
  | fuel + 1, c =>
    (grnPatCursorNextByKey s c).bind fun r =>
      if r.1 = 0 then some [] else (idsByKeyLoop s fuel r.2).map (r.1 :: ·)

/-- The ids that a cursor returns that is opened with a filled stack. -/
def idsWith (s : GrnPat) (ss : List CursorEntry) (offset : ℕ) (limit : ℤ) (descending : Bool) :
    Option (List ℕ) :=
  (openWith s ss offset limit descending).bind (idsByKeyLoop s (s.currRec + 1))

/-! ## Trees on the stack -/

variable {s : GrnPat} {w : ℕ → Word} {ts : List (Trie ℕ)} {ss : List CursorEntry}
  {descending : Bool} {ids : List ℕ}

/-- The tree behind an entry. -/
def CursorEntry.Holds (nodes : ℕ → Node) (w : ℕ → Word) (se : CursorEntry) (t : Trie ℕ) : Prop :=
  Linked nodes se.check se.id t ∧ WF w se.check t

/-- The trees behind the entries of a stack. -/
def Stacked (nodes : ℕ → Node) (w : ℕ → Word) : List CursorEntry → List (Trie ℕ) → Prop :=
  List.Forall₂ (CursorEntry.Holds nodes w)

/-- The records of the trees in their order. -/
def inOrders (descending : Bool) (ts : List (Trie ℕ)) : List ℕ :=
  ts.flatMap (Trie.inOrder descending)

/-- How often a loop may come to a link of a tree. -/
def linkCount (t : Trie ℕ) : ℕ := 2 * t.inner.card + 1

def linkCounts (ts : List (Trie ℕ)) : ℕ := (ts.map linkCount).sum

theorem linkCount_node (i c : ℕ) (child : Bool → Trie ℕ) (d : Bool) :
    linkCount (.node i c child) = linkCount (child d) + linkCount (child !d) + 1 := by
  cases d <;> simp [linkCount, Trie.inner] <;> omega

theorem linkCounts_append (ts ts' : List (Trie ℕ)) :
    linkCounts (ts ++ ts') = linkCounts ts + linkCounts ts' := by
  simp [linkCounts]

theorem card_inner_child (i c : ℕ) (child : Bool → Trie ℕ) (d : Bool) :
    (child d).inner.card < (Trie.node i c child).inner.card := by
  cases d <;> simp [Trie.inner]

/-- **The way down to the first record** leaves its other sides on the stack. -/
theorem leafLoop_spec {t : Trie ℕ} {fuel id check : ℕ} (hlink : Linked s.nodes check id t)
    (hwf : WF w check t) (hfuel : t.inner.card < fuel) (ss : List CursorEntry) :
    ∃ r es ts, leafLoop s descending fuel id check ss = some (r, es ++ ss) ∧
      Stacked s.nodes w es ts ∧ linkCounts ts < linkCount t ∧
      (r = 0 ∧ t.inOrder descending = inOrders descending ts ∨
        r ≠ 0 ∧ t.inOrder descending = r :: inOrders descending ts) := by
  induction t generalizing fuel id check ss with
  | nil =>
    obtain ⟨fuel, rfl⟩ := Nat.exists_eq_succ_of_ne_zero (Nat.ne_of_gt (Nat.zero_lt_of_lt hfuel))
    obtain rfl : id = 0 := hlink
    exact ⟨0, [], [], rfl, .nil, Nat.zero_lt_one, .inl ⟨rfl, rfl⟩⟩
  | leaf i =>
    obtain ⟨fuel, rfl⟩ := Nat.exists_eq_succ_of_ne_zero (Nat.ne_of_gt (Nat.zero_lt_of_lt hfuel))
    obtain ⟨rfl, hne, hcheck⟩ := hlink
    refine ⟨id, [], [], ?_, .nil, Nat.zero_lt_one, .inr ⟨hne, rfl⟩⟩
    have hstop : ¬ check < (s.nodes id).check := Nat.not_lt.mpr (Int.ofNat_le.mp hcheck)
    simp only [leafLoop, if_neg hne, if_neg hstop, List.nil_append]
  | node i c child ih =>
    obtain ⟨fuel, rfl⟩ := Nat.exists_eq_succ_of_ne_zero (Nat.ne_of_gt (Nat.zero_lt_of_lt hfuel))
    obtain ⟨rfl, hne, rfl, hchild⟩ := hlink
    obtain ⟨hlo, -, hside⟩ := hwf
    have hgo : check < (s.nodes id).check := Int.ofNat_lt.mp hlo
    have hsmall := (card_inner_child id (s.nodes id).check child descending).trans_le
      (Nat.lt_succ_iff.mp hfuel)
    obtain ⟨r, es, ts, hloop, hstack, hcount, horder⟩ := ih descending (hchild descending)
      (hside descending).2 hsmall (⟨(s.nodes id).lr !descending, (s.nodes id).check⟩ :: ss)
    refine ⟨r, es ++ [⟨(s.nodes id).lr !descending, (s.nodes id).check⟩],
      ts ++ [child !descending], ?_, ?_, ?_, ?_⟩
    · rw [leafLoop, if_neg hne]
      simp only [if_pos hgo, hloop, List.append_assoc, List.singleton_append]
    · exact List.rel_append hstack (.cons ⟨hchild _, (hside _).2⟩ .nil)
    · rw [linkCounts_append, linkCount_node _ _ _ descending]
      simp only [linkCounts, List.map_cons, List.map_nil, List.sum_cons, List.sum_nil, add_zero]
      simp only [linkCounts] at hcount
      omega
    · have hsplit : inOrders descending (ts ++ [child !descending]) =
          inOrders descending ts ++ (child !descending).inOrder descending := by
        simp [inOrders]
      rw [hsplit, inOrder]
      rcases horder with ⟨hr, horder⟩ | ⟨hr, horder⟩
      · exact .inl ⟨hr, by rw [horder]⟩
      · exact .inr ⟨hr, by rw [horder, List.cons_append]⟩

/-- **What a cursor has ahead**: the records of the trees on its stack. -/
structure KeyCursor.Ahead (s : GrnPat) (w : ℕ → Word) (c : KeyCursor) (ids : List ℕ) : Prop where
  tail : c.tail = 0
  stack : ∃ ts, Stacked s.nodes w c.ss ts ∧ ids = inOrders c.descending ts ∧
    linkCounts ts ≤ 2 * s.currRec + 2 ∧ ∀ t ∈ ts, t.inner.card ≤ s.currRec

/-- The trees that are left are not larger than those they are parts of. -/
theorem card_inner_le_of_linkCounts {t : Trie ℕ} (ht : t ∈ ts) {n : ℕ}
    (h : linkCounts ts < 2 * n + 1) : t.inner.card ≤ n := by
  have hle : linkCount t ≤ linkCounts ts :=
    List.single_le_sum (fun _ _ => Nat.zero_le _) _ (List.mem_map.mpr ⟨t, ht, rfl⟩)
  simp only [linkCount] at hle
  omega

/-- **The first record** on the stack, and what `grn_pat_cursor_next` does with it. -/
theorem nextByKeyLoop_first {fuel : ℕ} {c : KeyCursor} (hstack : Stacked s.nodes w c.ss ts)
    (hfuel : linkCounts ts < fuel) (hcounts : linkCounts ts ≤ 2 * s.currRec + 2)
    (hcards : ∀ t ∈ ts, t.inner.card ≤ s.currRec) :
    (inOrders c.descending ts = [] ∧ nextByKeyLoop s fuel c = some (0, { c with ss := [] })) ∨
    ∃ id ss' ts', id ≠ 0 ∧ inOrders c.descending ts = id :: inOrders c.descending ts' ∧
      Stacked s.nodes w ss' ts' ∧ linkCounts ts' ≤ 2 * s.currRec + 2 ∧
      (∀ t ∈ ts', t.inner.card ≤ s.currRec) ∧
      nextByKeyLoop s fuel c =
        if id = c.tail then some (id, { c with ss := [], currRec := id, rest := c.rest - 1 })
        else if c.currRec = 0 ∧ c.tail ≠ 0 ∧ isBehindTail s c id then some (0, { c with ss := [] })
        else some (id, { c with ss := ss', currRec := id, rest := c.rest - 1 }) := by
  induction fuel generalizing c ts with
  | zero => exact absurd hfuel (Nat.not_lt_zero _)
  | succ fuel ih =>
    obtain ⟨currRec, tail, rest, ss, descending⟩ := c
    cases hstack with
    | nil => exact .inl ⟨rfl, rfl⟩
    | @cons se t ss ts hhead hrest =>
      have hcard : t.inner.card < s.currRec + 1 := Nat.lt_succ_of_le (hcards t (by simp))
      obtain ⟨r, es, ts', hloop, hstack', hcount, horder⟩ :=
        @leafLoop_spec s w descending t _ _ _ hhead.1 hhead.2 hcard ss
      have hsum : linkCounts (t :: ts) = linkCount t + linkCounts ts := rfl
      have happend := linkCounts_append ts' ts
      have hcards' : ∀ t' ∈ ts' ++ ts, t'.inner.card ≤ s.currRec := by
        intro t' ht'
        rcases List.mem_append.mp ht' with ht' | ht'
        · refine card_inner_le_of_linkCounts ht' (hcount.trans_le ?_)
          have := hcards t (by simp)
          simp only [linkCount]
          omega
        · exact hcards t' (List.mem_cons_of_mem _ ht')
      have hboth : Stacked s.nodes w (es ++ ss) (ts' ++ ts) := List.rel_append hstack' hrest
      have hsplit : inOrders descending (ts' ++ ts) = inOrders descending ts' ++
          inOrders descending ts := by simp [inOrders]
      have hcons : inOrders descending (t :: ts) = t.inOrder descending ++
          inOrders descending ts := rfl
      rcases horder with ⟨rfl, horder⟩ | ⟨hr, horder⟩
      · -- nothing behind this link
        have hnext : nextByKeyLoop s (fuel + 1) ⟨currRec, tail, rest, se :: ss, descending⟩ =
            nextByKeyLoop s fuel ⟨currRec, tail, rest, es ++ ss, descending⟩ := by
          rw [nextByKeyLoop]
          simp only [hloop, Option.bind_some, if_true]
        simp only [hnext]
        rw [hcons, horder, ← hsplit]
        exact @ih _ ⟨currRec, tail, rest, es ++ ss, descending⟩ hboth (by omega) (by omega) hcards'
      · refine .inr ⟨r, es ++ ss, ts' ++ ts, hr, by rw [hcons, horder, hsplit, List.cons_append],
          hboth, by omega, hcards', ?_⟩
        have hcountPos : 0 < linkCount t := Nat.succ_pos _
        obtain ⟨fuel, rfl⟩ := Nat.exists_eq_succ_of_ne_zero (show fuel ≠ 0 by omega)
        have hempty : nextByKeyLoop s (fuel + 1) ⟨currRec, tail, rest, [], descending⟩ =
            some (0, ⟨currRec, tail, rest, [], descending⟩) := rfl
        rw [nextByKeyLoop]
        simp only [hloop, Option.bind_some, if_neg hr, isBehindTail, hempty]

/-- **The next record** of a cursor by key is the first one ahead. -/
theorem nextByKeyLoop_spec {fuel : ℕ} {c : KeyCursor} (htail : c.tail = 0)
    (hstack : Stacked s.nodes w c.ss ts) (hfuel : linkCounts ts < fuel)
    (hcounts : linkCounts ts ≤ 2 * s.currRec + 2) (hcards : ∀ t ∈ ts, t.inner.card ≤ s.currRec) :
    (inOrders c.descending ts = [] ∧ ∃ c', nextByKeyLoop s fuel c = some (0, c') ∧
      c'.Ahead s w [] ∧ c'.rest = c.rest ∧ c'.descending = c.descending) ∨
    ∃ id ids c', nextByKeyLoop s fuel c = some (id, c') ∧ id ≠ 0 ∧
      inOrders c.descending ts = id :: ids ∧ c'.Ahead s w ids ∧ c'.rest = c.rest - 1 ∧
      c'.descending = c.descending := by
  rcases nextByKeyLoop_first hstack hfuel hcounts hcards with ⟨hnil, hnext⟩ |
    ⟨id, ss', ts', hid, hcons, hstack', hcounts', hcards', hnext⟩
  · exact .inl ⟨hnil, _, hnext, ⟨htail, [], .nil, rfl, Nat.zero_le _, by simp⟩, rfl, rfl⟩
  · refine .inr ⟨id, _, { c with ss := ss', currRec := id, rest := c.rest - 1 }, ?_, hid, hcons,
      ⟨htail, ts', hstack', rfl, hcounts', hcards'⟩, rfl, rfl⟩
    rw [hnext, if_neg (by rwa [htail])]
    exact if_neg fun h => h.2.1 htail

/-- `grn_pat_cursor_next` of a cursor that may still return records. -/
theorem grnPatCursorNextByKey_spec {c : KeyCursor} (h : c.Ahead s w ids) (hrest : c.rest ≠ 0) :
    ∃ id c', grnPatCursorNextByKey s c = some (id, c') ∧ c'.Ahead s w ids.tail ∧
      c'.descending = c.descending ∧
      (ids = [] ∧ id = 0 ∧ c'.rest = c.rest ∨
        id ≠ 0 ∧ ids = id :: ids.tail ∧ c'.rest = c.rest - 1) := by
  obtain ⟨htail, ts, hstack, rfl, hcounts, hcards⟩ := h
  rw [grnPatCursorNextByKey, if_neg hrest]
  rcases @nextByKeyLoop_spec s w ts (2 * s.currRec + 3) c htail hstack (by omega) hcounts hcards
    with ⟨hnil, c', hnext, hahead, hrest', hdesc⟩ | ⟨id, ids, c', hnext, hid, hcons, hahead, hrest', hdesc⟩
  · rw [hnil]
    exact ⟨0, c', hnext, hahead, hdesc, .inl ⟨rfl, rfl, hrest'⟩⟩
  · rw [hcons]
    exact ⟨id, c', hnext, hahead, hdesc, .inr ⟨hid, rfl, hrest'⟩⟩

/-- A call of a cursor takes the first of the ids that are ahead of it, where `A` says which
these are. -/
def TakesFirst (s : GrnPat) (A : KeyCursor → List ℕ → Prop) : Prop :=
  ∀ c ids, A c ids → c.rest ≠ 0 → ∃ id c', grnPatCursorNextByKey s c = some (id, c') ∧
    A c' ids.tail ∧ (ids = [] ∧ id = 0 ∧ c'.rest = c.rest ∨
      id ≠ 0 ∧ ids = id :: ids.tail ∧ c'.rest = c.rest - 1)

variable {A : KeyCursor → List ℕ → Prop}

/-- **Skipping** passes over the first records, when the cursor may still return as many. -/
theorem TakesFirst.skip (hA : TakesFirst s A) {c : KeyCursor} {offset : ℕ} (h : A c ids)
    (hrest : ids.length ≤ c.rest ∨ offset ≤ c.rest) :
    ∃ c', skipByKey s offset c = some c' ∧ A c' (ids.drop offset) := by
  induction offset generalizing c ids with
  | zero => exact ⟨c, rfl, h⟩
  | succ offset ih =>
    by_cases hzero : c.rest = 0
    · -- no record is left either
      have hnil : ids = [] := by
        rcases hrest with hrest | hrest
        · exact List.length_eq_zero_iff.mp (Nat.le_zero.mp (hzero ▸ hrest))
        · exact absurd (hzero ▸ hrest) (Nat.not_succ_le_zero offset)
      subst hnil
      have hnext : grnPatCursorNextByKey s c = some (0, c) := if_pos hzero
      obtain ⟨c', hskip, hahead⟩ := ih h (.inl (Nat.zero_le _))
      refine ⟨c', ?_, by simpa using hahead⟩
      rw [skipByKey, hnext, Option.bind_some]
      exact hskip
    · obtain ⟨id, c₁, hnext, hahead₁, hcase⟩ := hA c ids h hzero
      have hrest₁ : ids.tail.length ≤ c₁.rest ∨ offset ≤ c₁.rest := by
        rw [List.length_tail]
        rcases hcase with ⟨rfl, -, -⟩ | ⟨-, hcons, hr⟩
        · exact .inl (Nat.zero_le _)
        · rw [hr]
          exact hrest.imp (Nat.sub_le_sub_right · 1) Nat.le_sub_one_of_lt
      obtain ⟨c', hskip, hahead⟩ := ih hahead₁ hrest₁
      refine ⟨c', ?_, ?_⟩
      · rw [skipByKey, hnext, Option.bind_some]
        exact hskip
      · rwa [List.drop_tail] at hahead

/-- **All records**: those ahead, as many as the cursor may return. -/
theorem TakesFirst.all (hA : TakesFirst s A) {fuel : ℕ} {c : KeyCursor} (h : A c ids)
    (hfuel : ids.length < fuel) : idsByKeyLoop s fuel c = some (ids.take c.rest) := by
  induction fuel generalizing c ids with
  | zero => exact absurd hfuel (Nat.not_lt_zero _)
  | succ fuel ih =>
    rw [idsByKeyLoop]
    by_cases hzero : c.rest = 0
    · have hnext : grnPatCursorNextByKey s c = some (0, c) := if_pos hzero
      rw [hnext, hzero]
      rfl
    · obtain ⟨id, c', hnext, hahead, hcase⟩ := hA c ids h hzero
      rw [hnext, Option.bind_some]
      rcases hcase with ⟨rfl, rfl, -⟩ | ⟨hid, hcons, hrest⟩
      · simp
      · obtain ⟨n, hn⟩ := Nat.exists_eq_succ_of_ne_zero hzero
        have hlength : ids.tail.length < fuel := by
          rw [hcons, List.length_cons] at hfuel
          exact Nat.lt_of_succ_lt_succ hfuel
        have hids := ih hahead hlength
        rw [hrest, hn, Nat.succ_sub_one] at hids
        simp only [if_neg hid, hids, Option.map_some]
        rw [hcons, hn, List.tail_cons, List.take_succ_cons]

/-- **What a cursor returns** after the first records were skipped. -/
theorem TakesFirst.opened (hA : TakesFirst s A) {c : KeyCursor} {offset : ℕ} {limit : ℤ} (h : A c ids)
    (hkeep : ∀ c ids rest, A c ids → A { c with rest := rest } ids)
    (hrest : ids.length ≤ c.rest ∨ offset ≤ c.rest) (hlength : ids.length ≤ s.currRec)
    (hmax : s.currRec ≤ grnIdMax) :
    ((skipByKey s offset c).map fun c => { c with rest := if limit < 0 then grnIdMax else limit.toNat }).bind
      (idsByKeyLoop s (s.currRec + 1)) = some (limited limit (ids.drop offset)) := by
  obtain ⟨c', hskip, hahead⟩ := hA.skip h hrest
  have hdrop : (ids.drop offset).length ≤ s.currRec := by
    rw [List.length_drop]
    exact (Nat.sub_le ..).trans hlength
  rw [hskip, Option.map_some, Option.bind_some,
    hA.all (hkeep c' _ (if limit < 0 then grnIdMax else limit.toNat) hahead) (Nat.lt_succ_of_le hdrop)]
  refine congrArg some ?_
  unfold limited
  split_ifs with hlimit
  · exact List.take_of_length_le (hdrop.trans hmax)
  · rfl

/-- **What a cursor returns** that is opened with a filled stack. -/
theorem idsWith_eq (hstack : Stacked s.nodes w ss ts) (hcounts : linkCounts ts ≤ 2 * s.currRec + 2)
    (hcards : ∀ t ∈ ts, t.inner.card ≤ s.currRec)
    (hlength : (inOrders descending ts).length ≤ s.currRec) (hmax : s.currRec ≤ grnIdMax)
    (offset : ℕ) (limit : ℤ) :
    idsWith s ss offset limit descending =
      some (limited limit ((inOrders descending ts).drop offset)) := by
  have hahead : (⟨0, 0, grnIdMax, ss, descending⟩ : KeyCursor).Ahead s w (inOrders descending ts) :=
    ⟨rfl, ts, hstack, rfl, hcounts, hcards⟩
  have htakes : TakesFirst s (KeyCursor.Ahead s w) := fun c ids hc hrest => by
    obtain ⟨id, c', hnext, hahead', -, hcase⟩ := grnPatCursorNextByKey_spec hc hrest
    exact ⟨id, c', hnext, hahead', hcase⟩
  exact htakes.opened hahead (fun c ids rest hc => ⟨hc.tail, hc.stack⟩) (.inl (hlength.trans hmax))
    hlength hmax

end Groonga.Pat
