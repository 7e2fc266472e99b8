import Groonga.Ii.Ahead
import Groonga.Lib.Heap

/-!
# The heap of cursors

A token of a query stands for one or more terms. Their cursors are in a heap, ordered by the
record, the section and the position that each of them is at. So the first cursor is at the next
occurrence of any of the terms, and going on with it goes on in the merge of all of them.
-/

namespace Groonga.Ii

open Groonga.Lib
open StoredCursor (atLeast)

/-- A place of a term: a position in a section of a record. -/
structure Occ where
  docid : Docid
  pos : ℕ
deriving DecidableEq, Repr

namespace Occ

instance : LinearOrder Occ :=
  LinearOrder.lift' (fun o => toLex (o.docid, o.pos)) fun a b h => by
    cases a
    cases b
    simpa using h

theorem lt_def {a b : Occ} : a < b ↔ a.docid < b.docid ∨ (a.docid = b.docid ∧ a.pos < b.pos) := by
  change toLex (a.docid, a.pos) < toLex (b.docid, b.pos) ↔ _
  exact Prod.Lex.toLex_lt_toLex

theorem le_def {a b : Occ} : a ≤ b ↔ a.docid < b.docid ∨ (a.docid = b.docid ∧ a.pos ≤ b.pos) := by
  change toLex (a.docid, a.pos) ≤ toLex (b.docid, b.pos) ↔ _
  exact Prod.Lex.toLex_le_toLex

end Occ

/-- The place that a cursor is at. -/
def Cursor.occ (c : Cursor) : Occ := ⟨c.docid, c.pos⟩

namespace CursorHeap

variable (ii : Layout)

/-! ## The operations -/

/-- `GRN_II_CURSOR_CMP`. -/
def cmp (c1 c2 : Cursor) : Bool :=
  c1.docid.rid > c2.docid.rid ||
    c1.docid.rid == c2.docid.rid &&
      (c1.docid.sid > c2.docid.sid || c1.docid.sid == c2.docid.sid && c1.pos > c2.pos)

/-- `cursor_heap_push` of a term that has a cursor; `none` is a loop that does not end. -/
def push (h : List Cursor) (t : Term) (min : ℕ) : Option (List Cursor) := do
  match ← Cursor.next ii (Cursor.open' min t) with
  | none => return h
  | some c =>
    match Cursor.nextPos ii c with
    | none => return h
    | some c => return Heap.push cmp h c

/-- The first cursor is closed. -/
def drop (h : List Cursor) : List Cursor := Heap.recalcMin cmp (Heap.removeMin h)

/-- The first cursor, after `next`, is moved to the first position. -/
def settle (bins : List Cursor) (c : Cursor) : Option Cursor → List Cursor
  | none => drop (c :: bins)
  | some c' =>
    match Cursor.nextPos ii c' with
    | none => drop (c :: bins)
    | some c' => Heap.recalcMin cmp (c' :: bins)

/-- `cursor_heap_pop`. -/
def pop (min : ℕ) : List Cursor → Option (List Cursor)
  | [] => some []
  | c :: bins => do return settle ii bins c (← Cursor.next ii (c.setMin min))

/-- `cursor_heap_pop_pos`. -/
def popPos : List Cursor → Option (List Cursor)
  | [] => some []
  | c :: bins =>
    match Cursor.nextPos ii c with
    | some c' => some (Heap.recalcMin cmp (c' :: bins))
    | none => do return settle ii bins c (← Cursor.next ii c)

/-- `cursor_heap_min` and `cursor_heap_pop_pos` by turns, until the heap is empty. -/
def drain : ℕ → List Cursor → Option (List Occ)
  | 0, _ => none
  | _ + 1, [] => some []
  | fuel + 1, c :: bins => do
    let h ← popPos ii (c :: bins)
    return c.occ :: (← drain fuel h)

/-- A heap of the cursors of terms. -/
def pushAll (ts : List Term) (min : ℕ) : Option (List Cursor) :=
  ts.foldlM (fun h t => push ii h t min) []

/-! ## What is in a heap -/

variable (skips : Prop)

/-- The places of a posting. -/
def occsOf (h : Hit) : List Occ := h.pos.map fun p => ⟨h.docid, p⟩

/-- The places that a cursor has ahead. -/
def ahead (a : Ahead) : List Occ :=
  (a.unread.map fun p => ⟨a.docid, p⟩) ++ a.hits.flatMap occsOf

/-- The places of a cursor, from the one it is at on. -/
structure Track where
  size : ℕ
  occs : List Occ

/-- A cursor in a heap: the position it is at has been read. -/
def Points (c : Cursor) (x : Track) : Prop :=
  ∃ a, c.Stands ii skips a ∧ (∀ p ∈ a.unread, c.pos ≤ p) ∧ x = ⟨a.size, c.occ :: ahead a⟩

/-- **A heap of cursors** and their places. -/
structure Holds (h : List Cursor) (xs : List Track) : Prop where
  heap : Heap.IsHeap Cursor.occ h
  points : List.Forall₂ (Points ii skips) h xs

/-- All the places of the cursors of a heap. -/
def contents (xs : List Track) : List Occ := xs.flatMap Track.occs

/-- What the cursors of a heap have ahead at the most. -/
def size (xs : List Track) : ℕ := (xs.map fun x => x.size + 1).sum

section Laws

variable {ii} {skips} {c : Cursor} {a : Ahead} {h bins : List Cursor} {x : Track} {xs : List Track}
  {min : ℕ}

theorem cmp_iff (c1 c2 : Cursor) : cmp c1 c2 = true ↔ c2.occ < c1.occ := by
  have hext : c2.docid = c1.docid ↔ c2.docid.rid = c1.docid.rid ∧ c2.docid.sid = c1.docid.sid := by
    cases c1.docid
    cases c2.docid
    simp
  simp only [cmp, Cursor.occ, Occ.lt_def, Docid.lt_def, hext, Bool.or_eq_true, Bool.and_eq_true,
    decide_eq_true_eq, beq_iff_eq, gt_iff_lt]
  omega

theorem contents_perm {ys : List Track} (h : ys.Perm xs) : (contents ys).Perm (contents xs) :=
  h.flatMap_right _

theorem size_perm {ys : List Track} (h : ys.Perm xs) : size ys = size xs :=
  (h.map _).sum_eq

theorem sorted_places (d : Docid) {ps : List ℕ} (h : ps.Pairwise (· ≤ ·)) :
    (ps.map fun p => (⟨d, p⟩ : Occ)).Pairwise (· ≤ ·) := by
  rw [List.pairwise_map]
  refine h.imp fun hpq => ?_
  exact Occ.le_def.2 (.inr ⟨rfl, hpq⟩)

/-- The places of a cursor are in order. -/
theorem Points.sorted (h : Points ii skips c x) : x.occs.Pairwise (· ≤ ·) := by
  obtain ⟨a, hstands, hle, rfl⟩ := h
  have hdocid := hstands.docid_eq
  obtain ⟨-, hord⟩ := hstands
  have hhits : (a.hits.flatMap occsOf).Pairwise (· ≤ ·) := by
    rw [List.pairwise_flatMap]
    refine ⟨fun h hh => sorted_places _ (hord.placed h hh).sorted, ?_⟩
    refine hord.sorted.imp fun hlt o ho o' ho' => ?_
    obtain ⟨p, -, rfl⟩ := List.mem_map.1 ho
    obtain ⟨q, -, rfl⟩ := List.mem_map.1 ho'
    exact Occ.le_def.2 (.inl hlt)
  have hafter : ∀ (d : Docid) (p : ℕ), d = a.docid → ∀ o ∈ a.hits.flatMap occsOf,
      (⟨d, p⟩ : Occ) ≤ o := by
    rintro d p rfl o ho
    obtain ⟨h, hh, ho⟩ := List.mem_flatMap.1 ho
    obtain ⟨q, -, rfl⟩ := List.mem_map.1 ho
    exact Occ.le_def.2 (.inl (hord.after h hh))
  refine List.pairwise_cons.2 ⟨fun o ho => ?_, List.pairwise_append.2 ⟨?_, hhits, ?_⟩⟩
  · rcases List.mem_append.1 ho with ho | ho
    · obtain ⟨p, hp, rfl⟩ := List.mem_map.1 ho
      exact Occ.le_def.2 (.inr ⟨hdocid, hle p hp⟩)
    · exact hafter c.docid c.pos hdocid o ho
  · exact sorted_places _ hord.unread
  · intro o ho o' ho'
    obtain ⟨p, -, rfl⟩ := List.mem_map.1 ho
    exact hafter a.docid p rfl o' ho'

theorem Points.head (h : Points ii skips c x) : ∃ os, x.occs = c.occ :: os := by
  obtain ⟨a, -, -, rfl⟩ := h
  exact ⟨_, rfl⟩

/-- The first cursor is at the first of all the places. -/
theorem Holds.le (h : Holds ii skips (c :: bins) xs) : ∀ o ∈ contents xs, c.occ ≤ o := by
  intro o ho
  obtain ⟨x, hx, ho⟩ := List.mem_flatMap.1 ho
  obtain ⟨c', hc', hpoints⟩ : ∃ c' ∈ c :: bins, Points ii skips c' x := by
    obtain ⟨i, hi, rfl⟩ := List.getElem_of_mem hx
    have hlen := h.points.length_eq
    exact ⟨_, List.getElem_mem (hlen ▸ hi), List.forall₂_iff_get.1 h.points |>.2 i _ hi⟩
  obtain ⟨os, hos⟩ := hpoints.head
  have hsorted := hpoints.sorted
  rw [hos] at hsorted ho
  refine (h.heap.le c' hc').trans ?_
  rcases List.mem_cons.1 ho with rfl | ho
  · exact le_rfl
  · exact (List.pairwise_cons.1 hsorted).1 o ho

theorem Holds.contents_eq_nil (h : Holds ii skips [] xs) : contents xs = [] := by
  cases h.points
  rfl

theorem Holds.head (h : Holds ii skips (c :: bins) xs) :
    ∃ x ys, xs = x :: ys ∧ Points ii skips c x ∧ List.Forall₂ (Points ii skips) bins ys := by
  obtain ⟨x, ys, hx, hys, rfl⟩ := List.forall₂_cons_left_iff.1 h.points
  exact ⟨x, ys, rfl, hx, hys⟩

/-- The tracks of the cursors follow them to their places. -/
theorem forall₂_perm {l l' : List Cursor} (hl : l'.Perm l) (h : List.Forall₂ (Points ii skips) l xs) :
    ∃ ys, List.Forall₂ (Points ii skips) l' ys ∧ ys.Perm xs :=
  List.perm_comp_forall₂ hl h

/-- The first cursor is closed. -/
theorem Holds.drop {x : Track} {ys : List Track} (h : Holds ii skips (c :: bins) (x :: ys)) :
    ∃ ys', Holds ii skips (drop (c :: bins)) ys' ∧ ys'.Perm ys := by
  obtain ⟨hheap, hperm⟩ := Heap.recalcMin_removeMin cmp_iff h.heap
  obtain ⟨-, hys⟩ := List.forall₂_cons.1 h.points
  obtain ⟨ys', hys', hp⟩ := forall₂_perm hperm hys
  exact ⟨ys', ⟨hheap, hys'⟩, hp⟩

/-- The first cursor is replaced. -/
theorem Holds.replace {c' : Cursor} {x x' : Track} {ys : List Track}
    (h : Holds ii skips (c :: bins) (x :: ys)) (hx : Points ii skips c' x') :
    ∃ ys', Holds ii skips (Heap.recalcMin cmp (c' :: bins)) ys' ∧ ys'.Perm (x' :: ys) := by
  obtain ⟨hheap, hperm⟩ := Heap.recalcMin_spec cmp_iff (c := c') h.heap
  obtain ⟨-, hys⟩ := List.forall₂_cons.1 h.points
  obtain ⟨ys', hys', hp⟩ := forall₂_perm hperm (List.forall₂_cons.2 ⟨hx, hys⟩)
  exact ⟨ys', ⟨hheap, hys'⟩, hp⟩

/-- The first position of a posting is read. -/
theorem points_of_gives {c' : Cursor} {hd : Hit} {hs : List Hit} {n : ℕ} (hplaced : hd.Placed)
    (h : c'.Stands ii skips ⟨n, hd.docid, hd.tf, hd.weight, hd.pos, hs⟩) :
    ∃ c'', Cursor.nextPos ii c' = some c'' ∧
      Points ii skips c'' ⟨n, (hd :: hs).flatMap occsOf⟩ := by
  rcases h.nextPos with ⟨hnil, -⟩ | ⟨c'', p, ps, hpos, hrun, hp, hstands⟩
  · exact absurd hnil hplaced.pos_ne
  · have hpos' : hd.pos = p :: ps := hpos
    refine ⟨c'', hrun, _, hstands, fun q hq => ?_, ?_⟩
    · have hsorted := hplaced.sorted
      rw [hpos'] at hsorted
      rw [hp]
      exact (List.pairwise_cons.1 hsorted).1 q hq
    · have hdocid := hstands.docid_eq
      simp only [ahead, List.flatMap_cons, occsOf, hpos', List.map_cons, Cursor.occ, hdocid, hp,
        List.cons_append]

/-- **After `next`** the heap holds what is left of the first cursor. -/
theorem Holds.settle {x : Track} {ys : List Track} {r : Option Cursor} {hs : List Hit}
    (h : Holds ii skips (c :: bins) (x :: ys)) (hgives : Cursor.Gives ii skips (some r) hs x.size) :
    ∃ zs, Holds ii skips (settle ii bins c r) zs ∧
      (contents zs).Perm (hs.flatMap occsOf ++ contents ys) ∧ size zs < size (x :: ys) := by
  rcases hgives with ⟨rfl, hr⟩ | ⟨c', hd, hs', n, rfl, hr, hplaced, hstands, hlt⟩
  · cases hr
    obtain ⟨zs, hzs, hperm⟩ := h.drop
    refine ⟨zs, hzs, contents_perm hperm, ?_⟩
    rw [size_perm hperm]
    simp only [size, List.map_cons, List.sum_cons]
    omega
  · cases hr
    obtain ⟨c'', hrun, hpoints⟩ := points_of_gives hplaced hstands
    obtain ⟨zs, hzs, hperm⟩ := h.replace hpoints
    refine ⟨zs, ?_, contents_perm hperm, ?_⟩
    · rw [CursorHeap.settle, hrun]
      exact hzs
    · rw [size_perm hperm]
      simp only [size, List.map_cons, List.sum_cons]
      omega

/-- What `next` gives is a result. -/
theorem gives_some {r : Option (Option Cursor)} {hs : List Hit} {n : ℕ}
    (h : Cursor.Gives ii skips r hs n) : ∃ r', r = some r' := by
  rcases h with ⟨-, hr⟩ | ⟨c', _, _, _, -, hr, -⟩
  · exact ⟨_, hr⟩
  · exact ⟨_, hr⟩

/-- **`cursor_heap_push`** adds the places of a term. -/
theorem push_spec {t : Term} {hs : List Hit} (h : Holds ii skips bins xs) (ht : t.Holds ii hs)
    (hsafe : skips → t.SkipSafe) (hmin : skips ∨ min = 0) :
    ∃ h' ys, push ii bins t min = some h' ∧ Holds ii skips h' ys ∧
      (contents ys).Perm ((atLeast min hs).flatMap occsOf ++ contents xs) := by
  obtain ⟨n, hgives⟩ := Cursor.open_gives ht hsafe hmin
  unfold push
  rcases hgives with ⟨hnil, hr⟩ | ⟨c', hd, hs', m, hcons, hr, hplaced, hstands, -⟩
  · rw [hr, hnil]
    exact ⟨bins, xs, rfl, h, .refl _⟩
  · rw [hr, hcons]
    obtain ⟨c'', hrun, hpoints⟩ := points_of_gives hplaced hstands
    obtain ⟨hheap, hperm⟩ := Heap.push_spec (c := c'') cmp_iff h.heap
    obtain ⟨ys, hys, hp⟩ := forall₂_perm hperm (List.forall₂_cons.2 ⟨hpoints, h.points⟩)
    refine ⟨_, ys, ?_, ⟨hheap, hys⟩, contents_perm hp⟩
    simp only [Option.bind_eq_bind, Option.bind_some, hrun]
    rfl

/-- **`cursor_heap_pop_pos`** takes the first place off. -/
theorem popPos_spec (h : Holds ii skips (c :: bins) xs) :
    ∃ h' ys, popPos ii (c :: bins) = some h' ∧ Holds ii skips h' ys ∧
      (contents xs).Perm (c.occ :: contents ys) ∧ size ys ≤ size xs := by
  obtain ⟨x, ys, rfl, ⟨a, hstands, hle, rfl⟩, hys⟩ := h.head
  rw [popPos]
  rcases hstands.nextPos with ⟨hnil, hrun⟩ | ⟨c', p, ps, hpos, hrun, hp, hstands'⟩
  · rw [hrun]
    have hgives := hstands.next_gives
    obtain ⟨r, hr⟩ := gives_some hgives
    rw [hr] at hgives
    obtain ⟨zs, hzs, hperm, hlt⟩ := h.settle hgives
    refine ⟨_, zs, by rw [hr]; rfl, hzs, ?_, hlt.le⟩
    refine List.Perm.trans ?_ (hperm.symm.cons _)
    simp [contents, ahead, hnil]
  · rw [hrun]
    have hpoints : Points ii skips c' ⟨a.size, c'.occ :: ahead { a with unread := ps }⟩ := by
      refine ⟨_, hstands', fun q hq => ?_, rfl⟩
      have hsorted := hstands.ordered.unread
      rw [hpos] at hsorted
      rw [hp]
      exact (List.pairwise_cons.1 hsorted).1 q hq
    obtain ⟨zs, hzs, hperm⟩ := h.replace hpoints
    refine ⟨_, zs, rfl, hzs, ?_, ?_⟩
    · refine List.Perm.trans (.of_eq ?_) ((contents_perm hperm).symm.cons _)
      have hdocid := hstands'.docid_eq
      simp [contents, ahead, hpos, Cursor.occ, hdocid, hp]
    · rw [size_perm hperm]
      exact le_rfl

/-- Of the places of a cursor: those that are not of its posting and not below `min`. -/
def further (d : Docid) (min : ℕ) (os : List Occ) : List Occ :=
  os.filter fun o => o.docid ≠ d ∧ min ≤ o.docid.rid

theorem further_ahead (h : c.Stands ii skips a) :
    further c.docid min (c.occ :: ahead a) = (atLeast min a.hits).flatMap occsOf := by
  have hunread : (a.unread.map fun p => (⟨a.docid, p⟩ : Occ)).filter
      (fun o => o.docid ≠ c.docid ∧ min ≤ o.docid.rid) = [] :=
    List.filter_eq_nil_iff.2 fun o ho => by
      obtain ⟨p, -, rfl⟩ := List.mem_map.1 ho
      simp [h.docid_eq]
  have hhits : ∀ l : List Hit, (∀ x ∈ l, a.docid < x.docid) →
      (l.flatMap occsOf).filter (fun o => o.docid ≠ c.docid ∧ min ≤ o.docid.rid) =
        (atLeast min l).flatMap occsOf := by
    intro l
    induction l with
    | nil => intro _; rfl
    | cons x l ih =>
      intro hl
      have hne : x.docid ≠ c.docid := by
        rw [h.docid_eq]
        exact (hl x List.mem_cons_self).ne'
      have ih' := ih fun y hy => hl y (List.mem_cons_of_mem _ hy)
      rw [List.flatMap_cons, List.filter_append, ih']
      by_cases hx : min ≤ x.docid.rid
      · have hall : (occsOf x).filter (fun o => o.docid ≠ c.docid ∧ min ≤ o.docid.rid) =
            occsOf x := List.filter_eq_self.2 fun o ho => by
          obtain ⟨p, -, rfl⟩ := List.mem_map.1 ho
          exact decide_eq_true ⟨hne, hx⟩
        have hkeep : atLeast min (x :: l) = x :: atLeast min l :=
          List.filter_cons_of_pos (decide_eq_true hx)
        rw [hall, hkeep, List.flatMap_cons]
      · have hnone : (occsOf x).filter (fun o => o.docid ≠ c.docid ∧ min ≤ o.docid.rid) = [] :=
          List.filter_eq_nil_iff.2 fun o ho => by
            obtain ⟨p, -, rfl⟩ := List.mem_map.1 ho
            simp [hx]
        have hskip : atLeast min (x :: l) = atLeast min l :=
          List.filter_cons_of_neg (by simpa using hx)
        rw [hnone, hskip, List.nil_append]
  have hhead : ¬ decide (c.occ.docid ≠ c.docid ∧ min ≤ c.occ.docid.rid) = true := by
    simp [Cursor.occ]
  rw [further, List.filter_cons, if_neg hhead, ahead, List.filter_append, hunread,
    hhits a.hits h.ordered.after, List.nil_append]

/-- **`cursor_heap_pop`** goes on with the first cursor: of its places those of its posting and
those below `min` are dropped. A posting that it had at hand may stay in front of the others. -/
theorem pop_spec (h : Holds ii skips (c :: bins) xs) (hskips : skips) (min : ℕ) :
    ∃ h' zs x ys, pop ii min (c :: bins) = some h' ∧ Holds ii skips h' zs ∧ size zs < size xs ∧
      xs = x :: ys ∧ Points ii skips c x ∧
      ∃ waiting : List Hit, (contents zs).Perm
        (waiting.flatMap occsOf ++ (further c.docid min x.occs ++ contents ys)) ∧
        waiting.length ≤ 1 ∧ ∀ w ∈ waiting, w.docid.rid < min := by
  obtain ⟨x, ys, rfl, hpoints, -⟩ := h.head
  obtain ⟨a, hstands, hle, rfl⟩ := id hpoints
  obtain ⟨hs, hor, hgives⟩ := hstands.setMin_gives hskips min
  obtain ⟨r, hr⟩ := gives_some hgives
  rw [hr] at hgives
  obtain ⟨zs, hzs, hperm, hlt⟩ := h.settle hgives
  refine ⟨_, zs, _, ys, by rw [pop, hr]; rfl, hzs, hlt, rfl, hpoints, ?_⟩
  rw [further_ahead hstands]
  rcases hor with rfl | ⟨w, hw, rfl⟩
  · exact ⟨[], hperm, by simp, by simp⟩
  · refine ⟨[w], ?_, by simp, by simpa using hw⟩
    rw [← List.append_assoc, ← List.flatMap_append]
    exact hperm

end Laws

end CursorHeap

end Groonga.Ii
