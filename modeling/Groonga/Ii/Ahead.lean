import Groonga.Ii.CursorStands

/-!
# What a cursor has ahead

Of a cursor, whether of a term with one posting or of one with a buffer, only this matters to
its users: the posting it stands at, the positions of it that are still unread, and the further
postings. `Stands` says so, and each operation has its law in these terms. The laws are all that
the search above the cursors needs.
-/

namespace Groonga.Ii

open Groonga.Lib
open StoredCursor (atLeast)

variable (ii : Layout) (skips : Prop)

/-- What a cursor that stands at a posting has ahead. -/
structure Ahead where
  size : ℕ
  docid : Docid
  tf : ℕ
  weight : ℕ
  unread : List ℕ
  hits : List Hit

/-- A posting has positions, and they are in order. -/
structure Hit.Placed (h : Hit) : Prop where
  pos_ne : h.pos ≠ []
  sorted : h.pos.Pairwise (· ≤ ·)

/-- All that is ahead is in order. -/
structure Ahead.Ordered (a : Ahead) : Prop where
  sorted : Sorted a.hits
  after : ∀ h ∈ a.hits, a.docid < h.docid
  placed : ∀ h ∈ a.hits, h.Placed
  unread : a.unread.Pairwise (· ≤ ·)

namespace Cursor

/-- **Where a cursor stands.** -/
def At : Cursor → Ahead → Prop
  | .sole rid sid pos _ docUsed posUsed, a =>
    docUsed = true ∧ a = ⟨0, ⟨rid, sid⟩, 1, 0, if posUsed then [] else [pos], []⟩
  | .stored c, a => ∃ suf x, c.Stands ii skips suf x ∧
    a = ⟨c.size ii suf, ⟨(c.side x).rid, (c.side x).sid⟩, (c.side x).tf, (c.side x).weight,
      c.unread ii x, c.view ii suf⟩

structure Stands (c : Cursor) (a : Ahead) : Prop where
  at_ : c.At ii skips a
  ordered : a.Ordered

/-- What `next` gives when the postings `hs` are left: the cursor at the first of them. -/
def Gives (r : Option (Option Cursor)) (hs : List Hit) (n : ℕ) : Prop :=
  (hs = [] ∧ r = some none) ∨
    ∃ c h hs' size, hs = h :: hs' ∧ r = some (some c) ∧ h.Placed ∧
      Stands ii skips c ⟨size, h.docid, h.tf, h.weight, h.pos, hs'⟩ ∧ size < n

end Cursor

/-- The only posting of a term that has no buffer. -/
def soleHit (rid sid pos : ℕ) : Hit := ⟨⟨rid, sid⟩, 1, 0, [pos]⟩

/-- The postings of a term. -/
def Term.Holds : Term → List Hit → Prop
  | .sole rid sid pos, hs => hs = [soleHit rid sid pos]
  | .stored s, hs => s.WF ii ∧ ∃ used xs, s.Chained ii used xs ∧
    hs = merged (s.chunkHits ii) (xs.map fun x => recHit ii (s.recs x))

/-- No chunk of the term seems to end too early. -/
def Term.SkipSafe : Term → Prop
  | .sole _ _ _ => True
  | .stored s => s.SkipSafe

/-! ## The postings that are left -/

section Left

variable {ii} {skips} {c : StoredCursor} {suf : List ℕ}

theorem length_cumul (p : ℕ) (gs : List ℕ) : (cumul p gs).length = gs.length := by
  induction gs generalizing p with
  | nil => rfl
  | cons g gs ih => rw [cumul, List.length_cons, List.length_cons, ih]

theorem length_pos_of_mem_hits (hp : ii.withPosition = true) {pc : Internal}
    {es : List Entry} (hes : ∀ e ∈ es, e.pos.length = 1 + e.tf) {h : Hit}
    (hh : h ∈ hits ii pc es) : h.pos.length = h.tf := by
  induction es generalizing pc with
  | nil => cases hh
  | cons e es ih =>
    rw [hits, List.mem_cons] at hh
    rcases hh with rfl | hh
    · simp only [Internal.hit, hp, if_true, length_cumul]
      exact hes e List.mem_cons_self
    · exact ih (fun e he => hes e (List.mem_cons_of_mem _ he)) hh

/-- The postings of chunks have positions. -/
theorem placed_of_mem_chunkHits {s : Stored} (h : s.WF ii) {x : Hit}
    (hx : x ∈ s.chunkHits ii) : x.Placed := by
  refine ⟨?_, h.sorted_pos x hx⟩
  obtain ⟨l, hl, hxl⟩ := List.mem_flatMap.1 hx
  cases hp : ii.withPosition with
  | true =>
    have hlen := length_pos_of_mem_hits hp (h.length_pos hp l hl) hxl
    have hv := visible_of_mem_hits hxl
    rintro hnil
    rw [hnil] at hlen
    simp [Hit.visible, ← hlen] at hv
  | false =>
    have hone : ∀ (es : List Entry) (pc : Internal), ∀ y ∈ hits ii pc es, y.pos = [0] := by
      intro es
      induction es with
      | nil => intro pc y hy; cases hy
      | cons e es ih =>
        intro pc y hy
        rw [hits, List.mem_cons] at hy
        rcases hy with rfl | hy
        · simp [Internal.hit, hp]
        · exact ih _ y hy
    rw [hone l .nil x hxl]
    simp

/-- So have the records that are no marks. -/
theorem placed_recHit {s : Stored} {used : Set ℕ} {xs : List ℕ} (h : s.Chained ii used xs)
    {r : ℕ} (hr : r ∈ xs) (hv : (recHit ii (s.recs r)).visible = true) :
    (recHit ii (s.recs r)).Placed := by
  refine ⟨?_, h.sorted_pos r hr⟩
  cases hp : ii.withPosition with
  | true =>
    have hlen : (recHit ii (s.recs r)).pos.length = (s.recs r).posting.tf := by
      simp only [recHit, StoredCursor.readRec, Internal.hit, hp, if_true, length_cumul,
        StoredCursor.length_posGaps]
      exact h.length_pos hp r hr
    rintro hnil
    rw [hnil] at hlen
    have htf : (recHit ii (s.recs r)).tf = 0 := hlen.symm
    simp [Hit.visible, htf] at hv
  | false => simp [recHit, Internal.hit, hp]

theorem placed_of_mem_view (h : c.Inv ii skips suf) {x : Hit} (hx : x ∈ c.view ii suf) :
    x.Placed := by
  obtain ⟨hv, hc | ⟨used, xs, hchained, r, hr, rfl⟩⟩ := h.mem_view hx
  · exact placed_of_mem_chunkHits h.wf hc
  · exact placed_recHit hchained hr hv

end Left

/-! ## The laws -/

namespace Cursor

variable {ii} {skips} {c : Cursor} {a : Ahead} {hs : List Hit} {min : ℕ}

theorem Stands.docid_eq (h : Stands ii skips c a) : c.docid = a.docid := by
  obtain ⟨hat, -⟩ := h
  cases c with
  | sole rid sid pos min docUsed posUsed =>
    obtain ⟨-, rfl⟩ := hat
    rfl
  | stored c =>
    obtain ⟨suf, x, hs, rfl⟩ := hat
    simp only [docid, StoredCursor.posting, hs.post, Option.map_some, Option.getD_some]
    cases x <;> rfl

/-- `next` of a cursor with a buffer. -/
theorem gives_stored {c : StoredCursor} {suf : List ℕ} (h : c.Inv ii skips suf)
    (hused : c.chunkUsed = true ∨ c.bufferUsed = true) :
    Gives ii skips (next ii (.stored c)) (c.view ii suf) (c.size ii suf) := by
  rcases h.next hused with ⟨hrun, hnil⟩ | ⟨c', suf', x, hrun, hstands, -, hview, hsize⟩
  · refine .inl ⟨hnil, ?_⟩
    simp [next, hrun]
  · have hsorted := h.sorted_view
    rw [hview] at hsorted
    have hplaced : ∀ y ∈ c.view ii suf, y.Placed := fun y => placed_of_mem_view h
    rw [hview] at hplaced
    refine .inr ⟨.stored c', _, c'.view ii suf', c'.size ii suf', hview, by simp [next, hrun],
      hplaced _ List.mem_cons_self, ⟨⟨suf', x, hstands, rfl⟩, ?_⟩, hsize⟩
    exact {
      sorted := hsorted.of_cons
      after := (List.pairwise_cons.1 hsorted).1
      placed := fun y hy => hplaced y (List.mem_cons_of_mem _ hy)
      unread := (hplaced _ List.mem_cons_self).sorted }

/-- `next` of a cursor of a term with one posting. -/
theorem gives_sole (rid sid pos min : ℕ) :
    Gives ii skips (next ii (.sole rid sid pos min false false))
      (atLeast min [soleHit rid sid pos]) 1 := by
  by_cases hlt : rid < min
  · refine .inl ⟨?_, by simp [next, hlt]⟩
    exact List.filter_cons_of_neg (by simp only [decide_eq_true_eq]; exact not_le.2 hlt)
  · refine .inr ⟨.sole rid sid pos min true false, soleHit rid sid pos, [], 0, ?_,
      by simp [next, hlt], ⟨by simp [soleHit], by simp [soleHit]⟩, ⟨⟨rfl, rfl⟩, ?_⟩,
      Nat.zero_lt_one⟩
    · exact List.filter_cons_of_pos (decide_eq_true (not_lt.1 hlt))
    · exact ⟨.nil, by simp, by simp, by simp [soleHit]⟩

/-- **Opening a cursor**: the postings from the bound on are left. -/
theorem open_gives {t : Term} (h : t.Holds ii hs) (hsafe : skips → t.SkipSafe)
    (hmin : skips ∨ min = 0) :
    ∃ n, Gives ii skips (next ii (open' min t)) (atLeast min hs) n := by
  cases t with
  | sole rid sid pos =>
    cases h
    exact ⟨1, gives_sole rid sid pos min⟩
  | stored s =>
    obtain ⟨hwf, used, xs, hchained, rfl⟩ := h
    obtain ⟨hinv, hview⟩ := @StoredCursor.open_spec ii skips _ min _ _ hwf hsafe hmin hchained
    rw [← hview]
    exact ⟨_, gives_stored hinv (.inl rfl)⟩

/-- **The next posting.** -/
theorem Stands.next_gives (h : Stands ii skips c a) : Gives ii skips (next ii c) a.hits a.size := by
  obtain ⟨hat, -⟩ := h
  cases c with
  | sole rid sid pos min docUsed posUsed =>
    obtain ⟨rfl, rfl⟩ := hat
    exact .inl ⟨rfl, rfl⟩
  | stored c =>
    obtain ⟨suf, x, hs, rfl⟩ := hat
    exact gives_stored hs.inv (StoredCursor.or_of_usedUp hs.used)

/-- **The next posting from a record id on.** One that was at hand already may come before. -/
theorem Stands.setMin_gives (h : Stands ii skips c a) (hskips : skips) (min : ℕ) :
    ∃ hs, (hs = atLeast min a.hits ∨
        ∃ x, x.docid.rid < min ∧ hs = x :: atLeast min a.hits) ∧
      Gives ii skips (next ii (c.setMin min)) hs a.size := by
  obtain ⟨hat, -⟩ := h
  cases c with
  | sole rid sid pos m docUsed posUsed =>
    obtain ⟨rfl, rfl⟩ := hat
    exact ⟨[], .inl rfl, .inl ⟨rfl, rfl⟩⟩
  | stored c =>
    obtain ⟨suf, x, hs, rfl⟩ := hat
    have hskip := hs.inv.setMin hskips hs.settled min
    have hused := hskip.oneUsed (StoredCursor.or_of_usedUp hs.used)
    have hgives := gives_stored hskip.inv hused
    refine ⟨(c.setMin min).view ii suf, ?_, ?_⟩
    rotate_left
    · rcases hgives with hnil | ⟨c', h', hs', size, h1, h2, h3, h4, h5⟩
      · exact .inl hnil
      · exact .inr ⟨c', h', hs', size, h1, h2, h3, h4, h5.trans_le hskip.size_le⟩
    · -- from `min` on nothing is lost, and nothing else than one posting is below it
      have hstale := hskip.inv.stale hused
      rw [hskip.min_eq] at hstale
      rcases le_total min c.min with hle | hle
      · rw [max_eq_left hle] at hstale
        have hall : ∀ y ∈ c.view ii suf, min ≤ y.docid.rid := fun y hy =>
          hle.trans (hs.bound y hy)
        have hsame : (c.setMin min).view ii suf = c.view ii suf := by
          rw [StoredCursor.setMin, if_pos hle]
        left
        rw [hsame, StoredCursor.atLeast_of_forall hall]
      · rw [max_eq_right hle, hskip.filter] at hstale
        exact hstale

/-- **The next position.** -/
theorem Stands.nextPos (h : Stands ii skips c a) :
    (a.unread = [] ∧ nextPos ii c = none) ∨
      ∃ c' p ps, a.unread = p :: ps ∧ nextPos ii c = some c' ∧ c'.pos = p ∧
        Stands ii skips c' { a with unread := ps } := by
  obtain ⟨hat, hord⟩ := h
  cases c with
  | sole rid sid pos min docUsed posUsed =>
    obtain ⟨rfl, rfl⟩ := hat
    cases posUsed with
    | true => exact .inl ⟨rfl, rfl⟩
    | false =>
      refine .inr ⟨.sole rid sid pos min true true, pos, [], rfl, rfl, rfl, ⟨rfl, rfl⟩, ?_⟩
      exact { hord with unread := .nil }
  | stored c =>
    obtain ⟨suf, x, hs, rfl⟩ := hat
    rcases hs.nextPos with ⟨hrun, hnil⟩ | ⟨c', hrun, hs', hunread, ⟨p, r, gs, hside⟩,
      hview, hsize⟩
    · exact .inl ⟨hnil, by simp [Cursor.nextPos, hrun]⟩
    · refine .inr ⟨.stored c', (c'.side x).pos, c'.unread ii x, hunread,
        by simp [Cursor.nextPos, hrun], ?_, ⟨suf, x, hs', ?_⟩, ?_⟩
      · simp only [pos, StoredCursor.posting, hs'.post, Option.map_some, Option.getD_some]
        cases x <;> rfl
      · rw [hview, hsize, hside]
      · have := hord.unread
        rw [hunread] at this
        exact { hord with unread := this.of_cons }

end Cursor

end Groonga.Ii
