import Groonga.Pat.Map
import Mathlib

/-!
# Defragmentation of the key area

`grn_pat_defrag` finishes the pending deletions, sorts the live records with a stored key
by the offset of the key, and moves their keys to the front of the key area, one behind
the other. It works in place: a key is moved over what is before it, which has been moved
or is garbage, as long as no key comes to lie behind its old place. Afterwards the ring of
pending deletions and the lists of free nodes are cleared, and the largest live id becomes
the last id.
-/

namespace Groonga.Pat

open Lib.Patricia Lib.Patricia.Trie

/-! ## Live records in the order of the tree -/

/-- `GRN_PAT_EACH_BEGIN`: the stack of `grn_pat_cursor_next` has links with the check of the
node they come from. -/
def eachLoop (s : GrnPat) : ℕ → List (ℕ × ℤ) → List ℕ
  | 0, _ => []
  | _ + 1, [] => []
  | fuel + 1, (id, check) :: stack =>
    if id = 0 then eachLoop s fuel stack
    else
      let node := s.nodes id
      if check < node.check then
        eachLoop s fuel ((node.lr false, node.check) :: (node.lr true, node.check) :: stack)
      else id :: eachLoop s fuel stack

/-- The ids that the cursor returns. -/
def grnPatEach (s : GrnPat) : List ℕ :=
  if s.nEntries = 0 then [] else eachLoop s (2 * s.currRec + 2) [(s.load .root, -1)]

/-! ## The operation -/

/-- `delinfos_turn_2_force`, from the slot `i` on. -/
def delinfosTurn2Force (s : GrnPat) : ℕ → ℕ → Option GrnPat
  | 0, _ => some s
  | n + 1, i =>
    if (s.delinfos i).stat ≠ .phase1 then delinfosTurn2Force s n (i + 1)
    else do
      let s ← delinfoTurn2 s i
      delinfosTurn2Force { s with currDel2 := (s.currDel2 + 1) % nDelinfos } n (i + 1)

/-- `pat_node_get_key_offset`. -/
def StoredKey.offset : StoredKey → ℕ
  | .immediate _ => 0
  | .stored offset _ => offset

/-- `pat_node_is_key_immediate`. -/
def StoredKey.isImmediate : StoredKey → Bool
  | .immediate _ => true
  | .stored _ _ => false

/-- `pat_key_move`. -/
def patKeyMove (s : GrnPat) (id newPosition : ℕ) : GrnPat :=
  { s.modify id ({ · with key := .stored newPosition (s.nodes id).key.length }) with
    keys := writeKey s.keys newPosition (s.keyOf id) }

/-- Where `pat_key_defrag_each` puts the next key: not across the end of a segment. -/
def defragPosition (newCurrKey keyLength : ℕ) : ℕ :=
  let newEndSegment := (newCurrKey + keyLength - 1) / keySegmentSize
  if newCurrKey / keySegmentSize ≠ newEndSegment then newEndSegment * keySegmentSize
  else newCurrKey

/-- `pat_key_defrag_each` with `pat_key_defrag_callback`: the table and the end of the keys. -/
def patKeyDefragEach (s : GrnPat) : List ℕ → ℕ → GrnPat × ℕ
  | [], newCurrKey => (s, newCurrKey)
  | id :: ids, newCurrKey =>
    let key := (s.nodes id).key
    let position := defragPosition newCurrKey key.length
    let s := if key.offset ≠ position then patKeyMove s id position else s
    patKeyDefragEach s ids (position + key.length)

/-- `grn_pat_defrag_clear_delinfos`. -/
def grnPatDefragClearDelinfos (s : GrnPat) (activeMaxId : ℕ) : GrnPat :=
  { s with
    garbages := fun _ => 0
    delinfos := fun _ => ⟨0, 0, .empty⟩
    currRec := activeMaxId
    currDel := 0
    currDel2 := 0
    currDel3 := 0
    nGarbages := 0 }

/-- The records whose keys are moved, by the offset of the key. -/
def defragTargets (s : GrnPat) : List ℕ :=
  ((grnPatEach s).filter fun id => !(s.nodes id).key.isImmediate).insertionSort
    fun a b => (s.nodes a).key.offset ≤ (s.nodes b).key.offset

/-- `grn_pat_defrag`: the table and the reduced bytes, a `uint64_t`. -/
def grnPatDefrag (s : GrnPat) : Option (GrnPat × ℕ) := do
  let s ← delinfosTurn2Force s nDelinfos 0
  if s.nEntries = 0 then
    return (grnPatDefragClearDelinfos { s with currKey := 0 } 0, s.currKey)
  else
    let activeMaxId := (grnPatEach s).foldl max 0
    let (s', newCurrKey) := patKeyDefragEach s (defragTargets s) 0
    return (grnPatDefragClearDelinfos { s' with currKey := newCurrKey } activeMaxId,
      (s.currKey + 2 ^ 64 - newCurrKey) % 2 ^ 64)

/-! ## The order of the tree -/

variable {s s' : GrnPat} {t : Trie ℕ} {own : ℕ → ℕ} {free : ℕ → List ℕ} {lost : Finset ℕ}
  {i j : ℕ}

/-- A linked tree on the stack is walked through before what is below it. -/
theorem eachLoop_linked {w : ℕ → Word} {lo : ℤ} {r : ℕ} {stack : List (ℕ × ℤ)}
    (h : Linked s.nodes lo r t) (hwf : WF w lo t) (fuel : ℕ) :
    ((eachLoop s (fuel + 1 + 2 * t.inner.card) ((r, lo) :: stack) : List ℕ) : Multiset ℕ) =
      t.leaves + (eachLoop s fuel stack : List ℕ) := by
  induction t generalizing lo r stack fuel with
  | nil =>
    have hr : r = 0 := h
    simp [hr, eachLoop]
  | leaf i =>
    obtain ⟨rfl, hne, hlo⟩ := h
    simp [eachLoop, hne, not_lt.mpr hlo]
  | node i c child ih =>
    obtain ⟨rfl, hne, hcheck, hchild⟩ := h
    obtain ⟨hlo, -, hside⟩ := hwf
    have hstep : eachLoop s (fuel + 1 + 2 * (Trie.node r c child).inner.card) ((r, lo) :: stack) =
        eachLoop s (fuel + 1 + 2 * (child true).inner.card + 1 + 2 * (child false).inner.card)
          (((s.nodes r).lr false, c) :: ((s.nodes r).lr true, c) :: stack) := by
      have hfuel : fuel + 1 + 2 * (Trie.node r c child).inner.card =
          fuel + 1 + 2 * (child true).inner.card + 1 + 2 * (child false).inner.card + 1 := by
        simp only [Trie.inner, Multiset.card_cons, Multiset.card_add]
        omega
      rw [hfuel, eachLoop, if_neg hne]
      simp only [hcheck, hlo, if_true]
    rw [hstep, ih false (hchild false) (hside false).2, ih true (hchild true) (hside true).2,
      Trie.leaves, add_assoc]

/-- What a table has when no deletion is pending: every branch belongs to a live record. -/
structure Settled (s : GrnPat) (t : Trie ℕ) (own : ℕ → ℕ) : Prop where
  rooted : Rooted s.nodes s.words t own
  live : ∀ j ∈ t.ids, j ∈ t.leaves
  deleting : ∀ j ∈ t.ids, (s.nodes j).deleting = false
  range : ∀ i ∈ t.leaves, 1 ≤ i ∧ i ≤ s.currRec
  currRec_le : s.currRec ≤ grnIdMax
  valid : ∀ i ∈ t.leaves, (s.nodes i).key.Valid s.isKeyLarge s.currKey
  apart : ∀ i ∈ t.leaves, ∀ j ∈ t.leaves, i ≠ j → (s.nodes i).key.Apart (s.nodes j).key
  entries : s.nEntries = t.leaves.card
  cache : CacheOk s t

theorem Inv.settled (h : Inv s t own free lost) (hphase1 : ∀ n, (s.delinfos n).stat ≠ .phase1) :
    Settled s t own := by
  have hlive : ∀ j ∈ t.ids, j ∈ t.leaves := by
    intro j hj
    by_contra hdead
    obtain ⟨n, hn, -⟩ := h.slots.dead j ((mem_ids.mp hj).resolve_right hdead) hdead
    exact hphase1 n hn
  have hknown : ∀ j ∈ t.leaves, s.KnownId lost j := fun j hj => h.known (mem_ids.mpr (.inr hj))
  refine
    { rooted := h.rooted
      live := hlive
      deleting := fun j hj => ?_
      range := fun i hi => h.range (mem_ids.mpr (.inr hi))
      currRec_le := h.accounts.currRec_le
      valid := fun i hi => h.keys.valid i (hknown i hi)
      apart := fun i hi j hj hij => h.keys.apart i j (hknown i hi) (hknown j hj) hij
      entries := h.accounts.entries
      cache := h.cache }
  rw [Bool.eq_false_iff]
  intro hdeleting
  obtain ⟨n, hn, -⟩ := (h.slots.deleting j hj).mp hdeleting
  exact hphase1 n hn

/-- **The cursor returns the live records.** -/
theorem Settled.coe_grnPatEach (h : Settled s t own) :
    ((grnPatEach s : List ℕ) : Multiset ℕ) = t.leaves := by
  unfold grnPatEach
  split_ifs with hempty
  · rw [h.entries, Multiset.card_eq_zero] at hempty
    simp [hempty]
  · have hcard : t.inner.card ≤ s.currRec := by
      have hsub : t.inner ≤ (Finset.Icc 1 s.currRec).val := by
        refine (Multiset.le_iff_subset h.rooted.inner_nodup).mpr fun j hj => ?_
        rw [Finset.mem_val, Finset.mem_Icc]
        exact h.range j (h.live j (mem_ids.mpr (.inl hj)))
      simpa using Multiset.card_le_card hsub
    obtain ⟨fuel, hfuel⟩ : ∃ fuel, 2 * s.currRec + 2 = fuel + 1 + 1 + 2 * t.inner.card :=
      ⟨2 * s.currRec - 2 * t.inner.card, by omega⟩
    rw [hfuel, load_eq, eachLoop_linked h.rooted.linked h.rooted.wf]
    simp [eachLoop]

theorem Settled.mem_grnPatEach (h : Settled s t own) : i ∈ grnPatEach s ↔ i ∈ t.leaves := by
  rw [← h.coe_grnPatEach, Multiset.mem_coe]

/-! ## The end of the pending deletions -/

theorem turn2Loop_congr (h : s'.nodes = s.nodes) (key : List UInt8) (checkMax d fuel : ℕ) (p : Loc)
    (c : ℤ) : turn2Loop s' key checkMax d fuel p c = turn2Loop s key checkMax d fuel p c := by
  induction fuel generalizing p c with
  | zero => rfl
  | succ fuel ih =>
    unfold turn2Loop
    dsimp only
    rw [load_eq, load_eq, h]
    split_ifs
    · rfl
    · rfl
    · rfl
    · exact ih _ _

/-- `delinfo_turn_2` neither reads nor moves the cursors of the ring. -/
theorem delinfoTurn2_currDel2 (s : GrnPat) (n c : ℕ) :
    delinfoTurn2 { s with currDel2 := c } n =
      (delinfoTurn2 s n).map ({ · with currDel2 := c }) := by
  unfold delinfoTurn2
  by_cases hstat : (s.delinfos n).stat = .phase1
  · simp only [hstat, ne_eq, not_true_eq_false, if_false, Option.bind_eq_bind, Option.map_bind]
    have hcongr : ∀ key checkMax fuel p lo, turn2Loop
        (({ s with currDel2 := c }.setDeleting (s.delinfos n).ld false).setDeleting
          (s.delinfos n).d false) key checkMax (s.delinfos n).d fuel p lo =
        turn2Loop ((s.setDeleting (s.delinfos n).ld false).setDeleting (s.delinfos n).d false) key
          checkMax (s.delinfos n).d fuel p lo := by
      intro key checkMax fuel p lo
      apply turn2Loop_congr
      rfl
    rw [hcongr]
    refine congrArg _ (funext fun p => ?_)
    cases p <;> rfl
  · simp [hstat]

/-- **The pending deletions are finished**: the live records stay, and no branch of a dead
record is left. Only the cursors of the ring may be wrong, as the slots are not taken in the
order of the ring. -/
theorem delinfosTurn2Force_spec (h : Inv s t own free lost) (n i c : ℕ) :
    ∃ s' t' own' c', delinfosTurn2Force { s with currDel2 := c } n i =
        some { s' with currDel2 := c' } ∧ Inv s' t' own' free lost ∧ t'.leaves = t.leaves ∧
      SameKeys s s' ∧ ∀ m, (s'.delinfos m).stat = .phase1 →
        (s.delinfos m).stat = .phase1 ∧ (m < i ∨ i + n ≤ m) := by
  induction n generalizing s t own i c with
  | zero => exact ⟨s, t, own, c, rfl, h, rfl, ⟨rfl, rfl, rfl, rfl, rfl, rfl, fun _ => rfl⟩,
      fun m hm => ⟨hm, by omega⟩⟩
  | succ n ih =>
    simp only [delinfosTurn2Force]
    by_cases hstat : (s.delinfos i).stat = .phase1
    · obtain ⟨s₁, t₁, own₁, hturn, hinv, hleaves, hsame, -, hdelinfos⟩ := delinfoTurn2_spec h hstat
      obtain ⟨s', t', own', c', hforce, hinv', hleaves', hsame', hphase1⟩ :=
        ih hinv (i + 1) ((c + 1) % nDelinfos)
      refine ⟨s', t', own', c', ?_, hinv', hleaves'.trans hleaves, hsame.trans hsame', fun m hm => ?_⟩
      · simp only [hstat, ne_eq, not_true_eq_false, if_false, delinfoTurn2_currDel2, hturn,
          Option.map_some, Option.bind_eq_bind, Option.bind_some, hforce]
      · obtain ⟨hm₁, hrange⟩ := hphase1 m hm
        rw [hdelinfos] at hm₁
        have hne : m ≠ i := by
          rintro rfl
          rw [Function.update_self] at hm₁
          cases hm₁
        rw [Function.update_of_ne hne] at hm₁
        exact ⟨hm₁, by omega⟩
    · obtain ⟨s', t', own', c', hforce, hinv', hleaves', hsame', hphase1⟩ := ih h (i + 1) c
      refine ⟨s', t', own', c', ?_, hinv', hleaves', hsame', fun m hm => ?_⟩
      · simp only [hstat, ne_eq, not_false_eq_true, if_true, hforce]
      · obtain ⟨hm₁, hrange⟩ := hphase1 m hm
        have hne : m ≠ i := by
          rintro rfl
          exact hstat hm₁
        exact ⟨hm₁, by omega⟩

/-! ## Moving the keys -/

/-- Where a key of the table is after it was moved, and that it fits there. -/
theorem le_defragPosition (newCurrKey keyLength : ℕ) (hpos : 0 < keyLength) :
    newCurrKey ≤ defragPosition newCurrKey keyLength := by
  simp only [defragPosition]
  split_ifs with hcross
  · have hlt : newCurrKey / keySegmentSize < (newCurrKey + keyLength - 1) / keySegmentSize :=
      lt_of_le_of_ne (Nat.div_le_div_right (by omega)) hcross
    exact (Nat.lt_mul_of_div_lt hlt (by simp [keySegmentSize])).le
  · exact le_rfl

/-- A key that was in one segment, not before `newCurrKey`, does not move up. -/
theorem defragPosition_le {newCurrKey offset keyLength : ℕ} (hpos : 0 < keyLength)
    (hle : newCurrKey ≤ offset)
    (hsegment : (offset + keyLength - 1) / keySegmentSize = offset / keySegmentSize) :
    defragPosition newCurrKey keyLength ≤ offset := by
  simp only [defragPosition]
  split_ifs with hcross
  · have hend : (newCurrKey + keyLength - 1) / keySegmentSize ≤ offset / keySegmentSize := by
      rw [← hsegment]
      exact Nat.div_le_div_right (by omega)
    exact (Nat.mul_le_mul_right _ hend).trans (Nat.div_mul_le_self _ _)
  · exact hle

/-- The new place is in one segment too. -/
theorem defragPosition_segment {newCurrKey keyLength : ℕ} (hpos : 0 < keyLength)
    (hlen : keyLength ≤ keySegmentSize) :
    (defragPosition newCurrKey keyLength + keyLength - 1) / keySegmentSize =
      defragPosition newCurrKey keyLength / keySegmentSize := by
  simp only [defragPosition]
  split_ifs with hcross
  · rw [Nat.add_sub_assoc hpos, Nat.add_comm, Nat.add_mul_div_right _ _ (by simp [keySegmentSize]),
      Nat.div_eq_of_lt (by omega), Nat.zero_add, Nat.mul_div_cancel _ (by simp [keySegmentSize])]
  · exact (not_not.mp hcross).symm

/-- The end of a key in the key area. -/
def StoredKey.endOffset (k : StoredKey) : ℕ := k.offset + k.length

/-- A stored key of at least one byte that is in one segment. -/
structure StoredKey.InSegment (k : StoredKey) : Prop where
  stored : k = .stored k.offset k.length
  pos : 0 < k.length
  length_le : k.length ≤ keySegmentSize
  segment : (k.endOffset - 1) / keySegmentSize = k.offset / keySegmentSize

/-- The keys that are still to be moved: in the order of their offsets, apart from each other,
and none before the end of the keys that were moved. -/
structure Movable (s : GrnPat) (ids : List ℕ) (newCurrKey : ℕ) : Prop where
  inSegment : ∀ id ∈ ids, (s.nodes id).key.InSegment
  le : ∀ id ∈ ids, newCurrKey ≤ (s.nodes id).key.offset
  order : ids.Pairwise fun a b => (s.nodes a).key.endOffset ≤ (s.nodes b).key.offset

/-- **The keys were moved**: nothing but their places has changed, and the bytes before
`newCurrKey` are untouched. -/
structure Moved (s s' : GrnPat) (ids : List ℕ) (newCurrKey endKey : ℕ) : Prop where
  rest : s' = { s with nodes := s'.nodes, keys := s'.keys }
  node : ∀ j, s'.nodes j = { s.nodes j with key := (s'.nodes j).key }
  node_ne : ∀ j ∉ ids, (s'.nodes j).key = (s.nodes j).key
  keyOf : ∀ id ∈ ids, s'.keyOf id = s.keyOf id
  below : ∀ o < newCurrKey, s'.keys o = s.keys o
  inSegment : ∀ id ∈ ids, (s'.nodes id).key.InSegment
  length : ∀ id ∈ ids, (s'.nodes id).key.length = (s.nodes id).key.length
  le : ∀ id ∈ ids, newCurrKey ≤ (s'.nodes id).key.offset
  offset_le : ∀ id ∈ ids, (s'.nodes id).key.offset ≤ (s.nodes id).key.offset
  endOffset_le : ∀ id ∈ ids, (s'.nodes id).key.endOffset ≤ endKey
  order : ids.Pairwise fun a b => (s'.nodes a).key.endOffset ≤ (s'.nodes b).key.offset
  le_endKey : newCurrKey ≤ endKey
  endKey_le : ∀ bound, newCurrKey ≤ bound → (∀ id ∈ ids, (s.nodes id).key.endOffset ≤ bound) →
    endKey ≤ bound

theorem StoredKey.InSegment.keyOf_eq {id : ℕ} (h : (s.nodes id).key.InSegment) :
    s.keyOf id = bytesAt s.keys (s.nodes id).key.offset (s.nodes id).key.length :=
  nodeKey_stored h.stored

theorem StoredKey.InSegment.length_keyOf {id : ℕ} (h : (s.nodes id).key.InSegment) :
    (s.keyOf id).length = (s.nodes id).key.length := by
  simp [h.keyOf_eq, bytesAt]

theorem bytesAt_congr {keys keys' : ℕ → UInt8} {offset length : ℕ}
    (h : ∀ o, offset ≤ o → o < offset + length → keys' o = keys o) :
    bytesAt keys' offset length = bytesAt keys offset length :=
  List.map_congr_left fun _ hn =>
    h _ (Nat.le_add_right ..) (Nat.add_lt_add_left (List.mem_range.mp hn) _)

/-- The table after one key was moved to `position`, or stays there. -/
def moveTo (s : GrnPat) (id position : ℕ) : GrnPat :=
  if (s.nodes id).key.offset ≠ position then patKeyMove s id position else s

/-- One key is moved down. -/
theorem moveTo_spec {id position : ℕ} (h : (s.nodes id).key.InSegment)
    (hle : position ≤ (s.nodes id).key.offset) :
    (moveTo s id position = { s with
      nodes := (moveTo s id position).nodes
      keys := (moveTo s id position).keys }) ∧
    (∀ j, j ≠ id → (moveTo s id position).nodes j = s.nodes j) ∧
    (moveTo s id position).nodes id =
      { s.nodes id with key := .stored position (s.nodes id).key.length } ∧
    (moveTo s id position).keyOf id = s.keyOf id ∧
    ∀ o, o < position ∨ (s.nodes id).key.endOffset ≤ o → (moveTo s id position).keys o = s.keys o := by
  unfold moveTo
  split_ifs with hmove
  · have hself : (patKeyMove s id position).nodes id =
        { s.nodes id with key := .stored position (s.nodes id).key.length } :=
      Function.update_self ..
    refine ⟨rfl, fun j hj => Function.update_of_ne hj .., hself, ?_, fun o ho => ?_⟩
    · have hkeys : (patKeyMove s id position).keys = writeKey s.keys position (s.keyOf id) := rfl
      rw [GrnPat.keyOf, nodeKey_stored (congrArg Node.key hself), hkeys, ← h.length_keyOf]
      exact bytesAt_writeKey_self ..
    · refine if_neg fun hin => ?_
      have hlen := h.length_keyOf
      have hend : (s.nodes id).key.endOffset = (s.nodes id).key.offset + (s.nodes id).key.length := rfl
      omega
  · refine ⟨rfl, fun _ _ => rfl, ?_, rfl, fun _ _ => rfl⟩
    rw [← not_not.mp hmove, ← h.stored]

/-- The other keys can still be moved when the first of them was moved. -/
theorem Movable.tail {id newCurrKey : ℕ} {ids : List ℕ} (h : Movable s (id :: ids) newCurrKey) :
    Movable (moveTo s id (defragPosition newCurrKey (s.nodes id).key.length)) ids
      (defragPosition newCurrKey (s.nodes id).key.length + (s.nodes id).key.length) := by
  have hin := h.inSegment id List.mem_cons_self
  obtain ⟨hfirst, horder⟩ := List.pairwise_cons.mp h.order
  have hdown := defragPosition_le hin.pos (h.le id List.mem_cons_self) hin.segment
  obtain ⟨-, hne, -⟩ := moveTo_spec hin hdown
  have hsame : ∀ j ∈ ids,
      (moveTo s id (defragPosition newCurrKey (s.nodes id).key.length)).nodes j = s.nodes j := by
    intro j hj
    refine hne j ?_
    rintro rfl
    have := hfirst j hj
    have := hin.pos
    have hend : (s.nodes j).key.endOffset = (s.nodes j).key.offset + (s.nodes j).key.length := rfl
    omega
  refine ⟨fun j hj => ?_, fun j hj => ?_, ?_⟩
  · rw [hsame j hj]
    exact h.inSegment j (List.mem_cons_of_mem _ hj)
  · rw [hsame j hj]
    exact (Nat.add_le_add_right hdown _).trans (hfirst j hj)
  · refine horder.imp_of_mem fun {a b} ha hb hab => ?_
    rw [hsame a ha, hsame b hb]
    exact hab

/-- **Moving the keys in order** keeps all of them. -/
theorem patKeyDefragEach_spec {ids : List ℕ} {newCurrKey : ℕ} (h : Movable s ids newCurrKey) :
    Moved s (patKeyDefragEach s ids newCurrKey).1 ids newCurrKey
      (patKeyDefragEach s ids newCurrKey).2 := by
  induction ids generalizing s newCurrKey with
  | nil =>
    exact ⟨rfl, fun _ => rfl, fun _ _ => rfl, by simp, fun _ _ => rfl, by simp, by simp, by simp,
      by simp, by simp, List.Pairwise.nil, le_rfl, fun _ hle _ => hle⟩
  | cons id ids ih =>
    have hin := h.inSegment id List.mem_cons_self
    have hle := h.le id List.mem_cons_self
    obtain ⟨hfirst, -⟩ := List.pairwise_cons.mp h.order
    set position := defragPosition newCurrKey (s.nodes id).key.length with hposition
    have hdown : position ≤ (s.nodes id).key.offset := defragPosition_le hin.pos hle hin.segment
    have hup : newCurrKey ≤ position := le_defragPosition newCurrKey _ hin.pos
    have hseg := @defragPosition_segment newCurrKey _ hin.pos hin.length_le
    obtain ⟨hrest, hne, hself, hkey, hkeys⟩ := moveTo_spec hin hdown
    set s₁ := moveTo s id position with hs₁
    have hnot : id ∉ ids := fun hmem => by
      have := hfirst id hmem
      have := hin.pos
      have hend : (s.nodes id).key.endOffset = (s.nodes id).key.offset + (s.nodes id).key.length :=
        rfl
      omega
    have hsame : ∀ j ∈ ids, s₁.nodes j = s.nodes j := fun j hj => hne j fun hji => hnot (hji ▸ hj)
    have hmovable : Movable s₁ ids (position + (s.nodes id).key.length) := h.tail
    have hmoved := ih hmovable
    have hstep : patKeyDefragEach s (id :: ids) newCurrKey =
        patKeyDefragEach s₁ ids (position + (s.nodes id).key.length) := rfl
    rw [hstep]
    set r := patKeyDefragEach s₁ ids (position + (s.nodes id).key.length) with hr
    have hrid : (r.1.nodes id).key = .stored position (s.nodes id).key.length := by
      rw [hmoved.node_ne id hnot, hself]
    have hridSegment : (r.1.nodes id).key.InSegment := by
      rw [hrid]
      exact ⟨rfl, hin.pos, hin.length_le, hseg⟩
    refine ⟨?_, fun j => ?_, fun j hj => ?_, fun j hj => ?_, fun o ho => ?_, fun j hj => ?_,
      fun j hj => ?_, fun j hj => ?_, fun j hj => ?_, fun j hj => ?_, ?_, ?_, fun bound _ hends => ?_⟩
    · have hr := hmoved.rest
      rw [hrest] at hr
      exact hr
    · rw [hmoved.node j]
      rcases eq_or_ne j id with rfl | hj
      · rw [hself]
      · rw [hne j hj]
    · rw [hmoved.node_ne j fun hm => hj (List.mem_cons_of_mem _ hm),
        hne j fun hji => hj (hji ▸ List.mem_cons_self)]
    · rcases List.mem_cons.mp hj with rfl | hj
      · -- the key that was just moved is before the others
        have h₁ : (s₁.nodes j).key = .stored position (s.nodes j).key.length := by rw [hself]
        rw [← hkey, GrnPat.keyOf, nodeKey_stored hrid, GrnPat.keyOf, nodeKey_stored h₁]
        exact bytesAt_congr fun o _ ho => hmoved.below o ho
      · rw [hmoved.keyOf j hj]
        have hj' := h.inSegment j (List.mem_cons_of_mem _ hj)
        have hj₁ : (s₁.nodes j).key.InSegment := by rw [hsame j hj]; exact hj'
        rw [hj₁.keyOf_eq, hj'.keyOf_eq, hsame j hj]
        exact bytesAt_congr fun o ho _ => hkeys o (.inr ((hfirst j hj).trans ho))
    · rw [hmoved.below o (by omega), hkeys o (.inl (by omega))]
    · rcases List.mem_cons.mp hj with rfl | hj
      · exact hridSegment
      · exact hmoved.inSegment j hj
    · rcases List.mem_cons.mp hj with rfl | hj
      · rw [hrid]
        rfl
      · rw [hmoved.length j hj, hsame j hj]
    · rcases List.mem_cons.mp hj with rfl | hj
      · rw [hrid]
        exact hup
      · exact (hup.trans (Nat.le_add_right ..)).trans (hmoved.le j hj)
    · rcases List.mem_cons.mp hj with rfl | hj
      · rw [hrid]
        exact hdown
      · exact (hmoved.offset_le j hj).trans (by rw [hsame j hj])
    · rcases List.mem_cons.mp hj with rfl | hj
      · rw [hrid]
        exact hmoved.le_endKey
      · exact hmoved.endOffset_le j hj
    · refine List.pairwise_cons.mpr ⟨fun j hj => ?_, hmoved.order⟩
      rw [hrid]
      exact hmoved.le j hj
    · exact (hup.trans (Nat.le_add_right ..)).trans hmoved.le_endKey
    · refine hmoved.endKey_le bound ?_ fun j hj => ?_
      · exact (Nat.add_le_add_right hdown _).trans (hends id List.mem_cons_self)
      · rw [hsame j hj]
        exact hends j (List.mem_cons_of_mem _ hj)

/-! ## The table afterwards -/

/-- The targets are the live records with a stored key. -/
theorem Settled.mem_defragTargets (h : Settled s t own) :
    i ∈ defragTargets s ↔ i ∈ t.leaves ∧ (s.nodes i).key.isImmediate = false := by
  simp [defragTargets, List.mem_insertionSort, h.mem_grnPatEach]

/-- The last live id. -/
def activeMaxId (s : GrnPat) : ℕ := (grnPatEach s).foldl max 0

theorem le_foldl_max (ids : List ℕ) (n : ℕ) : n ≤ ids.foldl max n ∧ ∀ i ∈ ids, i ≤ ids.foldl max n := by
  induction ids generalizing n with
  | nil => exact ⟨le_rfl, by simp⟩
  | cons a ids ih =>
    obtain ⟨hn, hids⟩ := ih (max n a)
    refine ⟨(le_max_left n a).trans hn, fun i hi => ?_⟩
    rcases List.mem_cons.mp hi with rfl | hi
    · exact (le_max_right n i).trans hn
    · exact hids i hi

theorem foldl_max_le {ids : List ℕ} {n bound : ℕ} (hn : n ≤ bound) (hids : ∀ i ∈ ids, i ≤ bound) :
    ids.foldl max n ≤ bound := by
  induction ids generalizing n with
  | nil => exact hn
  | cons a ids ih =>
    exact ih (max_le hn (hids a List.mem_cons_self)) fun i hi => hids i (List.mem_cons_of_mem _ hi)

/-- A key that does not cross the end of a segment is not longer than a segment. -/
theorem StoredKey.Valid.inSegment {isKeyLarge : Bool} {currKey : ℕ} {k : StoredKey}
    (h : k.Valid isKeyLarge currKey) (hk : k.isImmediate = false) : k.InSegment := by
  cases k with
  | immediate key => cases hk
  | stored offset length =>
    have hpos := lt_of_not_embeddable h.1
    have hsegment := h.2.2
    simp only [keySegmentSize] at hsegment
    refine ⟨rfl, ?_, ?_, h.2.2⟩
    · simp only [StoredKey.length]
      omega
    · simp only [StoredKey.length, keySegmentSize]
      omega

theorem StoredKey.InSegment.apart_iff {k k' : StoredKey} (h : k.InSegment) (h' : k'.InSegment) :
    k.Apart k' ↔ k.endOffset ≤ k'.offset ∨ k'.endOffset ≤ k.offset := by
  rw [h.stored, h'.stored]
  rfl

/-- The keys of the targets can be moved. -/
theorem Settled.movable (h : Settled s t own) : Movable s (defragTargets s) 0 := by
  have hin : ∀ id ∈ defragTargets s, (s.nodes id).key.InSegment := fun id hid => by
    obtain ⟨hlive, hstored⟩ := h.mem_defragTargets.mp hid
    exact (h.valid id hlive).inSegment hstored
  refine ⟨hin, fun _ _ => Nat.zero_le _, ?_⟩
  have hnodup : (defragTargets s).Nodup := by
    refine (List.perm_insertionSort _ _).nodup_iff.mpr (List.Nodup.filter _ ?_)
    rw [← Multiset.coe_nodup, h.coe_grnPatEach]
    exact h.rooted.leaves_nodup
  have hsorted : (defragTargets s).Pairwise
      fun a b => (s.nodes a).key.offset ≤ (s.nodes b).key.offset :=
    List.pairwise_insertionSort _ _
  refine (hsorted.and hnodup).imp_of_mem fun {a b} ha hb hab => ?_
  have hapart := h.apart a (h.mem_defragTargets.mp ha).1 b (h.mem_defragTargets.mp hb).1 hab.2
  rcases ((hin a ha).apart_iff (hin b hb)).mp hapart with hab' | hba
  · exact hab'
  · -- the offsets are in order
    have hpos := (hin b hb).pos
    have hend : (s.nodes b).key.endOffset = (s.nodes b).key.offset + (s.nodes b).key.length := rfl
    have := hab.1
    omega

/-- The ids below the last live id that are not live. They are not found again: the lists of
free nodes are cleared. -/
def holes (s : GrnPat) (live : Multiset ℕ) : Finset ℕ :=
  (Finset.Icc 1 (activeMaxId s)).filter (· ∉ live)

/-- The table when the keys of a settled table were moved. -/
def compacted (s : GrnPat) : GrnPat :=
  let (s', newCurrKey) := patKeyDefragEach s (defragTargets s) 0
  grnPatDefragClearDelinfos { s' with currKey := newCurrKey } (activeMaxId s)

/-- `grn_pat_defrag` finishes the deletions and moves the keys; a table without records needs
no case of its own. -/
theorem grnPatDefrag_eq (hforce : delinfosTurn2Force s nDelinfos 0 = some s') :
    ∃ reduced, grnPatDefrag s = some (compacted s', reduced) := by
  simp only [grnPatDefrag, hforce, Option.bind_eq_bind, Option.bind_some]
  split_ifs with hempty
  · have heach : grnPatEach s' = [] := if_pos hempty
    refine ⟨s'.currKey, ?_⟩
    simp [compacted, defragTargets, activeMaxId, heach, patKeyDefragEach]
  · exact ⟨_, rfl⟩

namespace Settled

theorem moved (h : Settled s t own) : Moved s (patKeyDefragEach s (defragTargets s) 0).1
    (defragTargets s) 0 (compacted s).currKey := patKeyDefragEach_spec h.movable

theorem node_compacted (h : Settled s t own) (j : ℕ) :
    (compacted s).nodes j = { s.nodes j with key := ((compacted s).nodes j).key } := h.moved.node j

/-- What belongs neither to keys nor to deletions. -/
theorem rest_compacted (h : Settled s t own) : (compacted s).isKeyLarge = s.isKeyLarge ∧
    (compacted s).nEntries = s.nEntries ∧ (compacted s).cacheSize = s.cacheSize ∧
    (compacted s).cache = s.cache := by
  have hrest := h.moved.rest
  simp only [compacted, grnPatDefragClearDelinfos]
  rw [hrest]
  exact ⟨rfl, rfl, rfl, rfl⟩

/-- A key in a node stays there. -/
theorem immediate_compacted (h : Settled s t own) (hi : (s.nodes i).key.isImmediate = true) :
    ((compacted s).nodes i).key = (s.nodes i).key := by
  refine h.moved.node_ne i fun hmem => ?_
  rw [(h.mem_defragTargets.mp hmem).2] at hi
  cases hi

/-- **No live key has changed.** -/
theorem keyOf_compacted (h : Settled s t own) (hi : i ∈ t.leaves) :
    (compacted s).keyOf i = s.keyOf i := by
  cases hkey : (s.nodes i).key with
  | immediate key =>
    have hkey' := h.immediate_compacted (i := i) (by rw [hkey]; rfl)
    rw [hkey] at hkey'
    rw [GrnPat.keyOf, GrnPat.keyOf, nodeKey_immediate hkey', nodeKey_immediate hkey]
  | stored offset length =>
    exact h.moved.keyOf i (h.mem_defragTargets.mpr ⟨hi, by rw [hkey]; rfl⟩)

/-- The key area does not grow. -/
theorem currKey_compacted_le (h : Settled s t own) : (compacted s).currKey ≤ s.currKey := by
  refine h.moved.endKey_le s.currKey (Nat.zero_le _) fun id hid => ?_
  obtain ⟨hlive, hstored⟩ := h.mem_defragTargets.mp hid
  have hvalid := h.valid id hlive
  have hin := hvalid.inSegment hstored
  rw [hin.stored] at hvalid
  exact hvalid.2.1

theorem le_activeMaxId (h : Settled s t own) (hi : i ∈ t.leaves) : i ≤ activeMaxId s :=
  (le_foldl_max _ 0).2 i (h.mem_grnPatEach.mpr hi)

theorem activeMaxId_le (h : Settled s t own) : activeMaxId s ≤ s.currRec :=
  foldl_max_le (Nat.zero_le _) fun i hi => (h.range i (h.mem_grnPatEach.mp hi)).2

/-- The live ids are those that are still known. -/
theorem knownId_compacted (h : Settled s t own) :
    (compacted s).KnownId (holes s t.leaves) i ↔ i ∈ t.leaves := by
  have hrec : (compacted s).currRec = activeMaxId s := rfl
  simp only [GrnPat.KnownId, hrec, holes, Finset.mem_filter, Finset.mem_Icc, not_and, not_not]
  constructor
  · rintro ⟨h1, h2, hin⟩
    exact hin ⟨h1, h2⟩
  · exact fun hi => ⟨(h.range i hi).1, h.le_activeMaxId hi, fun _ => hi⟩

theorem valid_compacted (h : Settled s t own) (hi : i ∈ t.leaves) :
    ((compacted s).nodes i).key.Valid s.isKeyLarge (compacted s).currKey := by
  have hvalid := h.valid i hi
  cases hkey : (s.nodes i).key with
  | immediate key =>
    rw [h.immediate_compacted (by rw [hkey]; rfl), hkey]
    rw [hkey] at hvalid
    exact hvalid
  | stored offset length =>
    have hmem := h.mem_defragTargets.mpr ⟨hi, by rw [hkey]; rfl⟩
    have hin : ((compacted s).nodes i).key.InSegment := h.moved.inSegment i hmem
    have hlength := h.moved.length i hmem
    have hend := h.moved.endOffset_le i hmem
    rw [hkey] at hvalid hlength
    have hgoal : (StoredKey.stored ((compacted s).nodes i).key.offset
        ((compacted s).nodes i).key.length).Valid s.isKeyLarge (compacted s).currKey := by
      refine ⟨?_, hend, hin.segment⟩
      have hl : ((compacted s).nodes i).key.length = length := hlength
      rw [hl]
      exact hvalid.1
    rw [← hin.stored] at hgoal
    exact hgoal

theorem apart_compacted (h : Settled s t own) (hi : i ∈ t.leaves) (hj : j ∈ t.leaves) (hij : i ≠ j) :
    ((compacted s).nodes i).key.Apart ((compacted s).nodes j).key := by
  cases hkey : (s.nodes i).key with
  | immediate key =>
    rw [h.immediate_compacted (i := i) (by rw [hkey]; rfl), hkey]
    trivial
  | stored o l =>
    cases hkey' : (s.nodes j).key with
    | immediate key =>
      rw [h.immediate_compacted (i := j) (by rw [hkey']; rfl), hkey']
      exact StoredKey.apart_immediate _
    | stored o' l' =>
      have hi' := h.mem_defragTargets.mpr ⟨hi, by rw [hkey]; rfl⟩
      have hj' := h.mem_defragTargets.mpr ⟨hj, by rw [hkey']; rfl⟩
      refine ((h.moved.inSegment i hi').apart_iff (h.moved.inSegment j hj')).mpr ?_
      -- one of them was moved first
      have horder : ∀ a ∈ defragTargets s, ∀ b ∈ defragTargets s, a ≠ b →
          ((compacted s).nodes a).key.endOffset ≤ ((compacted s).nodes b).key.offset ∨
          ((compacted s).nodes b).key.endOffset ≤ ((compacted s).nodes a).key.offset :=
        fun a ha b hb hab => List.Pairwise.forall_of_forall_of_flip (R := fun a b => a ≠ b →
            ((compacted s).nodes a).key.endOffset ≤ ((compacted s).nodes b).key.offset ∨
            ((compacted s).nodes b).key.endOffset ≤ ((compacted s).nodes a).key.offset)
          (fun x _ hx => absurd rfl hx) (h.moved.order.imp fun hab _ => .inl hab)
          (h.moved.order.imp fun hab _ => .inr hab) ha hb hab
      exact horder i hi' j hj' hij

/-- **The invariant holds after a defragmentation**, with the same tree. Every id that is not
live is lost. -/
theorem inv_compacted (h : Settled s t own) :
    Inv (compacted s) t own (fun _ => []) (holes s t.leaves) := by
  have hwords : ∀ j ∈ t.ids, (compacted s).words j = s.words j := fun j hj =>
    congrArg word (h.keyOf_compacted (h.live j hj))
  have hcheck : ∀ j, ((compacted s).nodes j).check = (s.nodes j).check := fun j => by
    rw [h.node_compacted]
  have hlr : ∀ j, ((compacted s).nodes j).lr = (s.nodes j).lr := fun j => by
    rw [h.node_compacted]
  obtain ⟨hlarge, hnEntries, hcacheSize, hcache⟩ := h.rest_compacted
  refine ⟨?_, ?_, ?_, ?_, ?_, ?_⟩
  · have hroot : linkAt (compacted s).nodes .root = linkAt s.nodes .root := by
      simp only [linkAt, hlr]
    have hrooted := h.rooted.congr hroot (fun j _ => hcheck j) fun j _ => hlr j
    refine { hrooted with wf := hrooted.wf.congr hwords, disabled := fun i hi hfree => ?_ }
    rw [hwords i (mem_ids.mpr (.inr hi))]
    exact hrooted.disabled i hi hfree
  · exact
      { del_lt := by simp [compacted, grnPatDefragClearDelinfos]
        del2_lt := by simp [compacted, grnPatDefragClearDelinfos]
        del3_lt := by simp [compacted, grnPatDefragClearDelinfos]
        half := by simp [compacted, grnPatDefragClearDelinfos]
        order := by simp [compacted, grnPatDefragClearDelinfos]
        lt := fun _ hn => absurd rfl hn
        used := fun _ hn => absurd rfl hn
        phase1 := fun _ hn => by cases hn }
  · refine
      { phase1 := fun _ hn => by cases hn
        dead := fun j hj hdead => absurd (h.live j (mem_ids.mpr (.inl hj))) hdead
        phase2 := fun _ hn => by cases hn
        d_inj := fun _ _ hn => absurd rfl hn
        deleting := fun j hj => ?_ }
    rw [h.node_compacted, h.deleting j hj]
    refine iff_of_false Bool.false_ne_true ?_
    rintro ⟨n, hn, -⟩
    cases hn
  · constructor
    · intro i hi
      rw [hlarge]
      exact h.valid_compacted (h.knownId_compacted.mp hi)
    · exact fun i j hi hj hij =>
        h.apart_compacted (h.knownId_compacted.mp hi) (h.knownId_compacted.mp hj) hij
  · have hpending : ∀ i, ¬ Pending (compacted s).delinfos i := by
      rintro i ⟨n, hn, -⟩
      exact hn rfl
    have hentries : (compacted s).nEntries = t.leaves.card := hnEntries.trans h.entries
    refine
      { total := fun i => ?_
        lost_le := fun i hi => ?_
        currRec_le := h.activeMaxId_le.trans h.currRec_le
        live_not_pending := fun i _ => hpending i
        live_not_free := fun _ _ _ => List.not_mem_nil
        pending_not_free := fun i hi => absurd hi (hpending i)
        free_nodup := fun _ => List.nodup_nil
        free_disjoint := fun _ _ _ hi => absurd hi List.not_mem_nil
        chain := fun _ => rfl
        size := fun _ _ hi => absurd hi List.not_mem_nil
        entries := hentries
        count := ?_ }
    · rw [h.knownId_compacted]
      simp [hpending]
    · exact Finset.mem_Icc.mp (Finset.mem_filter.mp hi).1
    · -- the ids up to the last one are live or holes
      have hlive : ((Finset.Icc 1 (activeMaxId s)).filter (· ∈ t.leaves)) = t.leaves.toFinset := by
        ext i
        simp only [Finset.mem_filter, Finset.mem_Icc, Multiset.mem_toFinset, and_iff_right_iff_imp]
        exact fun hi => ⟨(h.range i hi).1, h.le_activeMaxId hi⟩
      have hsplit := Finset.card_filter_add_card_filter_not (s := Finset.Icc 1 (activeMaxId s))
        (· ∈ t.leaves)
      rw [hlive, Multiset.toFinset_card_of_nodup h.rooted.leaves_nodup, Nat.card_Icc,
        Nat.add_sub_cancel] at hsplit
      rw [hentries]
      exact hsplit
  · intro hsize a ha
    rw [hcache] at ha ⊢
    rw [hcacheSize] at hsize ⊢
    obtain ⟨hlive, hid⟩ := h.cache hsize a ha
    rw [h.keyOf_compacted hlive]
    exact ⟨hlive, hid⟩

end Settled

/-! ## What a defragmentation preserves -/

/-- No key is moved over the bytes of a key that is still to be moved. -/
def NoOverwrite : GrnPat → List ℕ → ℕ → Prop
  | _, [], _ => True
  | s, id :: ids, newCurrKey =>
    let key := (s.nodes id).key
    let position := defragPosition newCurrKey key.length
    (key.offset ≠ position → ∀ j ∈ ids, position + key.length ≤ (s.nodes j).key.offset ∨
      (s.nodes j).key.endOffset ≤ position) ∧
    NoOverwrite (moveTo s id position) ids (position + key.length)

/-- The table `s`, the table `settled` after the end of the pending deletions and the table
`s'` afterwards. -/
structure Preserves (s settled s' : GrnPat) : Prop where
  get : ∀ key, grnPatGet s' key = grnPatGet s key
  key : ∀ id, LiveId s id → _grnPatKey s' id = _grnPatKey s id
  entries : s'.nEntries = s.nEntries
  totalKeySize : s'.currKey ≤ s.currKey
  moves : NoOverwrite settled (defragTargets settled) 0

/-- `grn_pat_defrag` does not fail, and the table is preserved. -/
def DefragPreserves (s : GrnPat) : Prop :=
  ∃ settled s' reduced, delinfosTurn2Force s nDelinfos 0 = some settled ∧
    grnPatDefrag s = some (s', reduced) ∧ Preserves s settled s'

theorem Movable.noOverwrite {ids : List ℕ} {newCurrKey : ℕ} (h : Movable s ids newCurrKey) :
    NoOverwrite s ids newCurrKey := by
  induction ids generalizing s newCurrKey with
  | nil => trivial
  | cons id ids ih =>
    have hin := h.inSegment id List.mem_cons_self
    have hdown := defragPosition_le hin.pos (h.le id List.mem_cons_self) hin.segment
    refine ⟨fun _ j hj => .inl ?_, ih h.tail⟩
    exact (Nat.add_le_add_right hdown _).trans ((List.pairwise_cons.mp h.order).1 j hj)

/-- Two tables with the same live records and keys find the same ids. -/
theorem grnPatGet_congr {t' : Trie ℕ} {own' : ℕ → ℕ} {free' : ℕ → List ℕ} {lost' : Finset ℕ}
    (h : Inv s t own free lost) (h' : Inv s' t' own' free' lost') (hleaves : t'.leaves = t.leaves)
    (hkeyOf : ∀ i ∈ t.leaves, s'.keyOf i = s.keyOf i) (key : List UInt8) :
    grnPatGet s' key = grnPatGet s key := by
  by_cases hlive : ∃ i ∈ t.leaves, s.keyOf i = key
  · obtain ⟨i, hi, hkey⟩ := hlive
    rw [h.grnPatGet_of_live hi hkey,
      h'.grnPatGet_of_live (hleaves ▸ hi) ((hkeyOf i hi).trans hkey)]
  · push Not at hlive
    rw [h.grnPatGet_of_not_live hlive]
    refine h'.grnPatGet_of_not_live fun i hi => ?_
    rw [hleaves] at hi
    rw [hkeyOf i hi]
    exact hlive i hi

/-- **The defragmentation**: the live records keep their ids and keys. -/
theorem grnPatDefrag_spec (h : Inv s t own free lost) :
    ∃ settled t' own' s' reduced, delinfosTurn2Force s nDelinfos 0 = some settled ∧
      grnPatDefrag s = some (s', reduced) ∧ Settled settled t' own' ∧ s' = compacted settled ∧
      Inv s' t' own' (fun _ => []) (holes settled t.leaves) ∧ t'.leaves = t.leaves ∧
      (∀ i ∈ t.leaves, s'.keyOf i = s.keyOf i) ∧ s'.currKey ≤ s.currKey ∧
      s'.currRec ≤ s.currRec := by
  obtain ⟨s₁, t', own', c, hforce, hinv, hleaves, hsame, hphase1⟩ :=
    delinfosTurn2Force_spec h nDelinfos 0 s.currDel2
  have hnone : ∀ n, (s₁.delinfos n).stat ≠ .phase1 := fun n hn => by
    obtain ⟨hstat, hrange⟩ := hphase1 n hn
    have hlt := h.ring.lt n (by rw [hstat]; exact Stat.noConfusion)
    simp only [nDelinfos] at hrange
    omega
  have hsettled : Settled { s₁ with currDel2 := c } t' own' := by
    obtain ⟨h1, h2, h3, h4, h5, h6, h7, h8, h9⟩ := hinv.settled hnone
    exact ⟨h1, h2, h3, h4, h5, h6, h7, h8, h9⟩
  have hforce : delinfosTurn2Force s nDelinfos 0 = some { s₁ with currDel2 := c } := hforce
  obtain ⟨reduced, hdefrag⟩ := grnPatDefrag_eq hforce
  refine ⟨_, t', own', _, reduced, hforce, hdefrag, hsettled, rfl, hleaves ▸ hsettled.inv_compacted,
    hleaves, fun i hi => ?_, ?_, ?_⟩
  · rw [hsettled.keyOf_compacted (hleaves ▸ hi)]
    exact congrFun hsame.keyOf_eq i
  · exact hsettled.currKey_compacted_le.trans hsame.currKey.le
  · exact hsettled.activeMaxId_le.trans hsame.currRec.le

theorem Inv.defragPreserves (h : Inv s t own free lost) : DefragPreserves s := by
  obtain ⟨settled, t', own', s', reduced, hforce, hdefrag, hsettled, rfl, hinv, hleaves, hkeyOf,
    hcurrKey, -⟩ := grnPatDefrag_spec h
  refine ⟨settled, _, reduced, hforce, hdefrag, ?_⟩
  refine
    { get := grnPatGet_congr h hinv hleaves hkeyOf
      key := fun id hid => ?_
      entries := ?_
      totalKeySize := hcurrKey
      moves := hsettled.movable.noOverwrite }
  · have hlive := h.liveId_iff.mp hid
    rw [hinv.grnPatKey_eq (hinv.known (mem_ids.mpr (.inr (hleaves ▸ hlive)))),
      h.grnPatKey_eq (h.known (mem_ids.mpr (.inr hlive))), hkeyOf id hlive]
  · rw [hinv.accounts.entries, hleaves, h.accounts.entries]

/-! ## Runs with defragmentations -/

/-- A call, or a defragmentation. -/
inductive Op where
  | call (c : Call)
  | defrag

/-- The table after an operation. One that fails leaves the table as it is. -/
def op (s : GrnPat) : Op → GrnPat
  | .call c => (call s c).1
  | .defrag => ((grnPatDefrag s).map (·.1)).getD s

def runOps (s : GrnPat) (ops : List Op) : GrnPat := ops.foldl op s

theorem Inv.op (h : Inv s t own free lost) (o : Op) :
    ∃ t' own' free' lost', Inv (op s o) t' own' free' lost' := by
  cases o with
  | call c =>
    obtain ⟨t', own', free', hinv⟩ := h.call c
    exact ⟨t', own', free', lost, hinv⟩
  | defrag =>
    obtain ⟨settled, t', own', s', reduced, -, hdefrag, -, -, hinv, -⟩ := grnPatDefrag_spec h
    simp only [Pat.op, hdefrag, Option.map_some, Option.getD_some]
    exact ⟨t', own', _, _, hinv⟩

theorem Inv.runOps (h : Inv s t own free lost) (ops : List Op) :
    ∃ t' own' free' lost', Inv (runOps s ops) t' own' free' lost' := by
  induction ops generalizing s t own free lost with
  | nil => exact ⟨t, own, free, lost, h⟩
  | cons o ops ih =>
    obtain ⟨t', own', free', lost', hinv⟩ := h.op o
    exact ih hinv

end Groonga.Pat
