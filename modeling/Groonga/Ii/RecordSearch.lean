import Groonga.Ii.Select

/-!
# From record to record

The select cursor is the same for all modes but for what it counts in a record and section. Of a
token only its positions there count, and so what is counted is a relation `C` between the
positions of the tokens and a number. Given that `find` computes such a number, the cursor returns
the records and sections in which it is not zero, in order.

When the offsets were cleared after the token infos had been opened, the position of the first
token is too low until it is moved on: it is `early`. The other tokens are moved on before anything
is counted.
-/

namespace Groonga.Ii

variable {ii : Layout} {skips : Prop}

/-! ## The head of a line -/

namespace Line

variable {x x' : Line} {ti : TokenInfo} {d d' : Docid} {p q : ℤ} {o : Occ} {os : List Occ}

/-- A line that is at a position. -/
def IsAt (x : Line) (d : Docid) (p : ℤ) : Prop := ∃ o os, x.occs = o :: os ∧ o.docid = d ∧ x.rel o = p

theorem IsAt.occursAt (h : x.IsAt d p) : x.OccursAt d p := by
  obtain ⟨o, os, hocc, hd, hp⟩ := h
  exact ⟨o, hocc ▸ List.mem_cons_self, hd, hp⟩

/-- Nothing is in front of the head. -/
theorem head_le (hs : x.occs.Pairwise (· ≤ ·)) (hhead : x.occs = o :: os) {o' : Occ}
    (ho' : o' ∈ x.occs) : o ≤ o' := by
  rw [hhead] at hs ho'
  rcases List.mem_cons.1 ho' with rfl | ho'
  · exact le_rfl
  · exact (List.pairwise_cons.1 hs).1 o' ho'

theorem head_docid_le (hs : x.occs.Pairwise (· ≤ ·)) (hhead : x.occs = o :: os) {o' : Occ}
    (ho' : o' ∈ x.occs) : o.docid ≤ o'.docid :=
  (Occ.le_def.1 (head_le hs hhead ho')).elim le_of_lt fun h => h.1.le

theorem not_occursAt_of_lt (hs : x.occs.Pairwise (· ≤ ·)) (hhead : x.occs = o :: os)
    (hlt : d < o.docid) : ¬ x.OccursAt d p := by
  rintro ⟨o', ho', rfl, -⟩
  exact not_lt.2 (head_docid_le hs hhead ho') hlt

theorem IsAt.le (h : x.IsAt d p) (hs : x.occs.Pairwise (· ≤ ·)) (hq : x.OccursAt d q) : p ≤ q := by
  obtain ⟨o, os, hhead, rfl, rfl⟩ := h
  obtain ⟨o', ho', hd, rfl⟩ := hq
  rcases Occ.le_def.1 (head_le hs hhead ho') with h | ⟨-, h⟩
  · exact absurd hd h.ne'
  · simp only [rel]
    omega

/-- Where a token info is after it was moved on: at the end, behind `d`, or in `d`. -/
inductive Landed (d : Docid) (pos : ℤ) (ti : TokenInfo) (ok : Bool) (x : Line) : Prop where
  | ended (h : ok = false) (hnil : x.occs = [])
  | behind (h : ok = true) (hlt : d < ti.p.docid)
      (hnone : ∀ d' p, d' < ti.p.docid → ¬ x.OccursAt d' p)
  | inside (h : ok = true) (hd : ti.p.docid = d) (hle : pos ≤ ti.pos) (hat : x.IsAt d ti.pos)

theorem Tracks.landed (h : Tracks ii skips ti x) {fuel : ℕ} (hfuel : x.occs.length < fuel)
    (hfrom : ∀ o ∈ x.occs, d ≤ o.docid) (pos : ℤ) :
    ∃ ti' ok x', TokenInfo.skipPos ii fuel ti d pos = some (ti', ok) ∧ Tracks ii skips ti' x' ∧
      Shortened (fun d' p => d' = d → pos ≤ p) x x' ∧ Landed d pos ti' ok x' := by
  obtain ⟨ti', ok, x', hrun, htracks, hplaced, hocc, hok, hshort⟩ := h.skipPos hfuel d pos
  refine ⟨ti', ok, x', hrun, htracks, hshort, ?_⟩
  cases hcase : x'.occs with
  | nil =>
    refine .ended ?_ hcase
    rw [← Bool.not_eq_true, hok, not_not]
    exact hcase
  | cons o os =>
    have hok' : ok = true := hok.2 (by simp [hcase])
    have hp : ti'.p = o := htracks.p o (by simp [hcase])
    have hpos : ti'.pos = x'.rel o := hplaced o (by simp [hcase])
    have hmem : o ∈ x.occs := hshort.suffix.subset (by simp [hcase])
    rcases (hfrom o hmem).eq_or_lt with hd | hlt
    · refine .inside hok' (by rw [hp, hd]) ?_ ⟨o, os, hcase, hd.symm, hpos.symm⟩
      have hstop := List.head?_dropWhile_not
        (fun o : Occ => decide (o.docid = d ∧ x.rel o < pos)) x.occs
      rw [← hocc, hcase, List.head?_cons] at hstop
      simp only [decide_eq_false_iff_not, not_and, not_lt] at hstop
      rw [hpos, rel, hshort.label]
      exact hstop hd.symm
    · refine .behind hok' (by rw [hp]; exact hlt) fun d' p hd' => ?_
      rw [hp] at hd'
      exact not_occursAt_of_lt htracks.sorted hcase hd'

/-- A line that has lost its head is shorter. -/
theorem Shortened.length_lt {keep : Docid → ℤ → Prop} {b : Docid} (h : Shortened keep x x')
    (hhead : x.occs = o :: os) (hlt : o.docid < b) (hfrom : ∀ o ∈ x'.occs, b ≤ o.docid) :
    x'.occs.length < x.occs.length := by
  refine h.suffix.length_le.lt_of_ne fun heq => ?_
  have hmem : o ∈ x'.occs := by
    rw [h.suffix.eq_of_length heq, hhead]
    exact List.mem_cons_self
  exact not_lt.2 (hfrom o hmem) hlt

end Line

/-! ## What is counted -/

open Line

/-- What counts of a token in a record and section: its positions there. -/
structure Spot where
  label : TokenLabel
  places : Set ℤ

namespace Line

variable {x x' : Line} {ls ls' : List Line} {d b : Docid} {o : Occ} {os : List Occ} {e : ℕ}

def spot (d : Docid) (x : Line) : Spot := ⟨x.label, {p | x.OccursAt d p}⟩

/-- The first token, whose position is too low by `e` while it is at its first place. -/
def early (e : ℕ) (d : Docid) (x : Line) : Spot :=
  ⟨x.label, {p | x.OccursAt d p ∨ ∃ o ∈ x.occs.head?, o.docid = d ∧ p = x.rel o - e}⟩

def spots (e : ℕ) (d : Docid) : List Line → List Spot
  | [] => []
  | x :: ls => x.early e d :: ls.map (spot d)

/-- All the tokens occur in a record and section. -/
def Meets (ls : List Line) (d : Docid) : Prop := ∀ x ∈ ls, ∃ p, x.OccursAt d p

theorem early_zero : x.early 0 d = x.spot d := by
  unfold early spot
  congr 1
  ext p
  simp only [Set.mem_ofPred_eq, or_iff_left_iff_imp]
  rintro ⟨o, ho, hd, rfl⟩
  exact ⟨o, List.mem_of_mem_head? ho, hd, by simp⟩

theorem early_of_ne (hhead : x.occs = o :: os) (hne : o.docid ≠ d) : x.early e d = x.spot d := by
  unfold early spot
  congr 1
  ext p
  simp only [Set.mem_ofPred_eq, or_iff_left_iff_imp]
  rintro ⟨o', ho', hd, -⟩
  rw [hhead] at ho'
  cases ho'
  exact absurd hd hne

theorem spots_zero : spots 0 d ls = ls.map (spot d) := by
  cases ls with
  | nil => rfl
  | cons x ls => rw [spots, early_zero, List.map_cons]

theorem Shortened.spot {keep : Docid → ℤ → Prop} (h : Shortened keep x x')
    (hkeep : ∀ p, keep d p) : x'.spot d = x.spot d := by
  unfold Line.spot
  rw [h.label]
  congr 1
  ext p
  exact ⟨h.occursAt, h.kept d p (hkeep p)⟩

theorem Advanced.map_spot {keep : Docid → ℤ → Prop} (h : Advanced keep ls ls')
    (hkeep : ∀ p, keep d p) : ls'.map (spot d) = ls.map (spot d) := by
  induction h with
  | nil => rfl
  | cons hx _ ih => rw [List.map_cons, List.map_cons, hx.spot hkeep, ih]

theorem Advanced.labels {keep : Docid → ℤ → Prop} (h : Advanced keep ls ls') :
    ls'.map Line.label = ls.map Line.label := by
  induction h with
  | nil => rfl
  | cons hx _ ih => rw [List.map_cons, List.map_cons, hx.label, ih]

theorem Advanced.meets {keep : Docid → ℤ → Prop} (h : Advanced keep ls ls')
    (hkeep : ∀ p, keep d p) : Meets ls' d ↔ Meets ls d := by
  constructor
  · intro hm x hx
    obtain ⟨x', hx', hs⟩ := h.exists_right hx
    obtain ⟨p, hp⟩ := hm x' hx'
    exact ⟨p, hs.occursAt hp⟩
  · intro hm x' hx'
    obtain ⟨x, hx, hs⟩ := h.exists_left hx'
    obtain ⟨p, hp⟩ := hm x hx
    exact ⟨p, hs.kept d p (hkeep p) hp⟩

/-- Where all meet now they met before. -/
theorem Advanced.meets_of {keep : Docid → ℤ → Prop} (h : Advanced keep ls ls')
    (hm : Meets ls' d) : Meets ls d := by
  intro x hx
  obtain ⟨x', hx', hs⟩ := h.exists_right hx
  obtain ⟨p, hp⟩ := hm x' hx'
  exact ⟨p, hs.occursAt hp⟩

/-- Behind its first place the first token is where it should be. -/
theorem Advanced.spots_behind (h : Advanced (fun d' _ => b ≤ d') (x :: ls) ls')
    (hhead : x.occs = o :: os) (hlt : o.docid < b) (hd : b ≤ d) :
    spots 0 d ls' = spots e d (x :: ls) := by
  rw [spots_zero, h.map_spot fun _ => hd, spots, early_of_ne hhead (hlt.trans_le hd).ne,
    List.map_cons]

end Line

/-- The fuel is enough for the places of the lines. -/
structure Fits (fuel : ℕ) (ls : List Line) : Prop where
  size : ∀ x ∈ ls, x.size < fuel
  length : ∀ x ∈ ls, x.occs.length < fuel
  sum : (ls.map fun x => x.occs.length).sum + ls.length < fuel
  places : ∃ B : ℤ, (∀ x ∈ ls, ∀ o ∈ x.occs, x.rel o < B) ∧
    (B.toNat + 2) * (ls.length + 2) < fuel

/-- All the tokens are in a record and section, and nothing has been counted. -/
structure AtRecord (ii : Layout) (query : SelectQuery) (labels : List TokenLabel) (e : ℕ)
    (data : SelectData) (x : Line) (ls : List Line) : Prop where
  query : data.toSelectQuery = query
  labels : (x :: ls).map Line.label = labels
  tracks : List.Forall₂ (Tracks ii True) data.tokenInfos (x :: ls)
  inside : ∀ y ∈ x :: ls, ∃ o os, y.occs = o :: os ∧ o.docid = data.docid
  early : ∀ ti ∈ data.tokenInfos.head?, ∀ o ∈ x.occs.head?, ti.pos = x.rel o - e
  placed : List.Forall₂ Placed data.tokenInfos.tail ls

/-- What was counted, and how `find` leaves the tokens. -/
structure Counted (ii : Layout) (C : List Spot → ℕ → Prop) (e : ℕ) (data data' : SelectData)
    (ls ls' : List Line) : Prop where
  query : data'.toSelectQuery = data.toSelectQuery
  tracks : List.Forall₂ (Tracks ii True) data'.tokenInfos ls'
  docid : data'.docid = data.docid
  advanced : Advanced (fun d' _ => data.docid < d') ls ls'
  count : C (spots e data.docid ls) data'.nOccurrences
  next : data'.next = data.next ∨ (data.docid < data'.next ∧
    ∀ d', data.docid < d' → d' < data'.next → ¬ Meets ls d')

/-- **`find` computes the relation `C`.** -/
def Finds (ii : Layout) (query : SelectQuery) (labels : List TokenLabel)
    (C : List Spot → ℕ → Prop) (e₀ : ℕ) : Prop :=
  ∀ e data x ls fuel, e ≤ e₀ → AtRecord ii query labels e data x ls → Fits fuel (x :: ls) →
    ∃ data' ls', data.find ii fuel = some (some data') ∧ Counted ii C e data data' (x :: ls) ls'

/-! ## The loop over the records -/

section Records

variable {query : SelectQuery} {labels : List TokenLabel} {C : List Spot → ℕ → Prop} {e e₀ : ℕ}
  {d b : Docid} {x x' : Line} {ls ls' : List Line} {tis : List TokenInfo} {fuel k : ℕ}

/-- The token info of a line. -/
theorem exists_tracks (h : List.Forall₂ (Tracks ii True) tis ls) (hx : x ∈ ls) :
    ∃ ti ∈ tis, Tracks ii True ti x := by
  induction h with
  | nil => cases hx
  | cons h0 _ ih =>
    rcases List.mem_cons.1 hx with rfl | hx
    · exact ⟨_, List.mem_cons_self, h0⟩
    · obtain ⟨ti, hti, ht⟩ := ih hx
      exact ⟨ti, List.mem_cons_of_mem _ hti, ht⟩

theorem AtRecord.low {data : SelectData} (h : AtRecord ii query labels e data x ls) :
    From data.docid (x :: ls) := by
  intro y hy o' ho'
  obtain ⟨o, os, hhead, hd⟩ := h.inside y hy
  obtain ⟨ti, -, htracks⟩ := exists_tracks h.tracks hy
  rw [← hd]
  exact head_docid_le htracks.sorted hhead ho'

theorem sum_length_le {keep : Docid → ℤ → Prop} (h : Advanced keep ls ls') :
    (ls'.map fun x => x.occs.length).sum ≤ (ls.map fun x => x.occs.length).sum := by
  induction h with
  | nil => exact le_rfl
  | cons hx _ ih =>
    rw [List.map_cons, List.map_cons, List.sum_cons, List.sum_cons]
    exact Nat.add_le_add hx.suffix.length_le ih

theorem Fits.advanced {keep : Docid → ℤ → Prop} (h : Fits fuel ls)
    (hadv : Advanced keep ls ls') : Fits fuel ls' := by
  obtain ⟨hsize, hlength, hsum, B, hB, hfuel⟩ := h
  refine ⟨fun x' hx' => ?_, fun x' hx' => ?_, ?_, B,
    fun x' hx' o ho => ?_, ?_⟩
  · obtain ⟨x, hx, hs⟩ := hadv.exists_left hx'
    exact hs.size_le.trans_lt (hsize x hx)
  · obtain ⟨x, hx, hs⟩ := hadv.exists_left hx'
    exact hs.suffix.length_le.trans_lt (hlength x hx)
  · rw [← hadv.length_eq]
    exact (Nat.add_le_add_right (sum_length_le hadv) _).trans_lt hsum
  · obtain ⟨x, hx, hs⟩ := hadv.exists_left hx'
    have := hB x hx o (hs.suffix.subset ho)
    rwa [rel, ← hs.label] at this
  · rw [← hadv.length_eq]
    exact hfuel

/-- How the other tokens follow the first one into `d`. -/
inductive Followed (d : Docid) (tis : List TokenInfo) (ls ls' : List Line) :
    SelectData.Prepared → Prop where
  | ended (h : ∀ d', d ≤ d' → ¬ Meets ls d') : Followed d tis ls ls' .ended
  | mismatch (next : Docid) (hlt : d < next) (h : ∀ d', d ≤ d' → d' < next → ¬ Meets ls d') :
      Followed d tis ls ls' (.mismatch next)
  | all (h : ∀ y ∈ ls', ∃ o os, y.occs = o :: os ∧ o.docid = d)
      (hplaced : List.Forall₂ Placed tis ls') : Followed d tis ls ls' .all

theorem prepareLoop_spec (h : List.Forall₂ (Tracks ii True) tis ls)
    (hsize : ∀ x ∈ ls, x.size < fuel) (d : Docid) :
    ∃ tis' ls' r, SelectData.prepareLoop ii fuel d tis = some (tis', r) ∧
      List.Forall₂ (Tracks ii True) tis' ls' ∧ Advanced (fun d' _ => d ≤ d') ls ls' ∧
      Followed d tis' ls ls' r := by
  induction h with
  | nil => exact ⟨[], [], .all, rfl, .nil, .nil, .all (by simp) .nil⟩
  | @cons ti x tis ls hx hrest ih =>
    obtain ⟨ti', ok, x', hrun, htrack, hplaced, hocc, hok, hshort⟩ :=
      hx.skip (hsize x List.mem_cons_self) d
    have hlow : ∀ o ∈ x'.occs, d ≤ o.docid := fun o ho => by
      rw [hocc, TokenInfo.dropWhile_eq_filter hx.sorted] at ho
      exact of_decide_eq_true (List.mem_filter.1 ho).2
    have hmeets : ∀ d', d ≤ d' → Meets (x :: ls) d' → ∃ p, x'.OccursAt d' p := fun d' hd' hm => by
      obtain ⟨p, hp⟩ := hm x List.mem_cons_self
      exact ⟨p, hshort.kept d' p hd' hp⟩
    rw [SelectData.prepareLoop, hrun]
    simp only [Option.bind_eq_bind, Option.bind_some]
    cases hcase : x'.occs with
    | nil =>
      have hok' : ok = false := by
        rw [← Bool.not_eq_true, hok, not_not]
        exact hcase
      rw [hok']
      refine ⟨_, x' :: ls, _, rfl, .cons htrack hrest, .cons hshort (Advanced.refl ls),
        .ended fun d' hd' hm => ?_⟩
      obtain ⟨p, o, ho, -⟩ := hmeets d' hd' hm
      rw [hcase] at ho
      cases ho
    | cons o os =>
      have hok' : ok = true := hok.2 (by simp [hcase])
      have hp : ti'.p = o := htrack.p o (by simp [hcase])
      rw [hok', hp]
      simp only [Bool.not_true, Bool.false_eq_true, if_false]
      by_cases heq : o.docid = d
      · rw [if_neg (not_not.2 heq)]
        obtain ⟨tis', ls', r, hrun', htracks', hadv', hfol⟩ :=
          ih fun x hx => hsize x (List.mem_cons_of_mem _ hx)
        rw [hrun']
        refine ⟨_, x' :: ls', r, rfl, .cons htrack htracks', .cons hshort hadv', ?_⟩
        have htail : ∀ d', Meets (x :: ls) d' → Meets ls d' := fun d' hm y hy =>
          hm y (List.mem_cons_of_mem _ hy)
        cases hfol with
        | ended h => exact .ended fun d' hd' hm => h d' hd' (htail d' hm)
        | mismatch next hlt h =>
          exact .mismatch next hlt fun d' hd' hd'' hm => h d' hd' hd'' (htail d' hm)
        | all h hplaced' =>
          refine .all (fun y hy => ?_) (.cons hplaced hplaced')
          rcases List.mem_cons.1 hy with rfl | hy
          · exact ⟨o, os, hcase, heq⟩
          · exact h y hy
      · rw [if_pos heq]
        have hlt : d < o.docid := lt_of_le_of_ne (hlow o (by simp [hcase])) (Ne.symm heq)
        refine ⟨_, x' :: ls, _, rfl, .cons htrack hrest, .cons hshort (Advanced.refl ls),
          .mismatch _ hlt fun d' hd' hd'' hm => ?_⟩
        obtain ⟨p, hp'⟩ := hmeets d' hd' hm
        exact not_occursAt_of_lt htrack.sorted hcase hd'' hp'

/-- The state between two records: the first token has a place. -/
structure Ready (ii : Layout) (query : SelectQuery) (labels : List TokenLabel) (e : ℕ)
    (data : SelectData) (x : Line) (ls : List Line) : Prop where
  query : data.toSelectQuery = query
  labels : (x :: ls).map Line.label = labels
  tracks : List.Forall₂ (Tracks ii True) data.tokenInfos (x :: ls)
  head : x.occs ≠ []
  early : ∀ ti ∈ data.tokenInfos.head?, ∀ o ∈ x.occs.head?, ti.pos = x.rel o - e

/-- How `prepare` ends: the search is over, the tokens did not meet, or they are in `d`. -/
inductive Met (ii : Layout) (query : SelectQuery) (labels : List TokenLabel) (e : ℕ) (x : Line)
    (ls : List Line) (data' : SelectData) : Bool → Prop where
  | passed (h : ∀ d, ¬ Meets (x :: ls) d) : Met ii query labels e x ls data' false
  | apart (ls' : List Line) (hmay : data'.mayMatch = false)
      (hquery : data'.toSelectQuery = query)
      (htracks : List.Forall₂ (Tracks ii True) data'.tokenInfos (x :: ls'))
      (hadv : Advanced (fun d' _ => data'.docid ≤ d') ls ls')
      (hlt : data'.docid < data'.next)
      (h : ∀ d, d < data'.next → ¬ Meets (x :: ls) d) : Met ii query labels e x ls data' true
  | together (ls' : List Line) (hmay : data'.mayMatch = true)
      (hat : AtRecord ii query labels e data' x ls')
      (hadv : Advanced (fun d' _ => data'.docid ≤ d') ls ls')
      (hnext : data'.next = ⟨data'.docid.rid, data'.docid.sid + 1⟩)
      (h : ∀ d, d < data'.docid → ¬ Meets (x :: ls) d) : Met ii query labels e x ls data' true

theorem prepare_spec {data : SelectData} (h : Ready ii query labels e data x ls)
    (hsize : ∀ x ∈ ls, x.size < fuel) :
    ∃ data' ok, data.prepare ii fuel = some (data', ok) ∧ Met ii query labels e x ls data' ok ∧
      ∃ o os, x.occs = o :: os ∧ o.docid = data'.docid := by
  obtain ⟨ti, tis, hx, hrest, htis⟩ := List.forall₂_cons_right_iff.1 h.tracks
  obtain ⟨o, os, hhead⟩ := List.exists_cons_of_ne_nil h.head
  have hp : ti.p = o := hx.p o (by simp [hhead])
  have hearly := h.early
  rw [htis] at hearly
  obtain ⟨tis', ls', r, hrun, htracks', hadv, hfol⟩ := prepareLoop_spec hrest hsize o.docid
  have hbefore : ∀ d, d < o.docid → ¬ Meets (x :: ls) d := fun d hd hm => by
    obtain ⟨p, hp⟩ := hm x List.mem_cons_self
    exact not_occursAt_of_lt hx.sorted hhead hd hp
  have htail : ∀ d, Meets (x :: ls) d → Meets ls d := fun d hm y hy =>
    hm y (List.mem_cons_of_mem _ hy)
  rw [SelectData.prepare, htis]
  simp only [hp, hrun, Option.bind_eq_bind, Option.bind_some]
  cases hfol with
  | ended hn =>
    refine ⟨_, _, rfl, .passed fun d hm => ?_, o, os, hhead, rfl⟩
    rcases lt_or_ge d o.docid with hd | hd
    · exact hbefore d hd hm
    · exact hn d hd (htail d hm)
  | mismatch next hlt hn =>
    refine ⟨_, _, rfl, .apart ls' rfl h.query (.cons hx htracks') hadv hlt fun d hd' hm => ?_, o,
      os, hhead, rfl⟩
    rcases lt_or_ge d o.docid with hd | hd
    · exact hbefore d hd hm
    · exact hn d hd hd' (htail d hm)
  | all hall hplaced =>
    have hlabels : (x :: ls').map Line.label = labels := by
      rw [List.map_cons, hadv.labels, ← List.map_cons, h.labels]
    refine ⟨_, _, rfl, .together ls' rfl ⟨h.query, hlabels, .cons hx htracks', fun y hy => ?_,
      hearly, hplaced⟩ hadv rfl hbefore, o, os, hhead, rfl⟩
    rcases List.mem_cons.1 hy with rfl | hy
    · exact ⟨o, os, hhead, rfl⟩
    · exact hall y hy

/-- The first token goes on to `next`. -/
theorem nextSkip_spec {data : SelectData} (hquery : data.toSelectQuery = query)
    (hlabels : (x :: ls).map Line.label = labels)
    (h : List.Forall₂ (Tracks ii True) data.tokenInfos (x :: ls)) (hsize : x.size < fuel) :
    ∃ data' ok x', data.nextSkip ii fuel = some (data', ok) ∧
      Shortened (fun d' _ => data.next ≤ d') x x' ∧
      (∀ o ∈ x'.occs, data.next ≤ o.docid) ∧
      ((ok = true ∧ Ready ii query labels 0 data' x' ls) ∨
        (ok = false ∧ ∀ d' p, data.next ≤ d' → ¬ x.OccursAt d' p)) := by
  obtain ⟨ti, tis, hx, hrest, htis⟩ := List.forall₂_cons_right_iff.1 h
  obtain ⟨ti', ok, x', hrun, htrack, hplaced, hocc, hok, hshort⟩ := hx.skip hsize data.next
  rw [SelectData.nextSkip, htis]
  simp only [hrun, Option.bind_eq_bind, Option.bind_some]
  refine ⟨_, ok, x', rfl, hshort, fun o ho => ?_, ?_⟩
  · rw [hocc, TokenInfo.dropWhile_eq_filter hx.sorted] at ho
    exact of_decide_eq_true (List.mem_filter.1 ho).2
  cases ok with
  | true =>
    refine .inl ⟨rfl, hquery, ?_, .cons htrack hrest, hok.1 rfl, ?_⟩
    · rw [← hlabels, List.map_cons, List.map_cons, hshort.label]
    · rintro ti ⟨⟩ o ho
      rw [hplaced o ho]
      simp
  | false =>
    refine .inr ⟨rfl, fun d' p hd' ho => ?_⟩
    obtain ⟨o, ho, -⟩ := hshort.kept d' p hd' ho
    have hnil : x'.occs = [] := by
      by_contra hne
      exact absurd (hok.2 hne) (by simp)
    rw [hnil] at ho
    cases ho

/-- What is left behind a posting is what was there, and nothing else. -/
structure Behind (e : ℕ) (b : Docid) (ls ls' : List Line) : Prop where
  meets : ∀ d, Meets ls' d ↔ b < d ∧ Meets ls d
  spots : ∀ d, b < d → Meets ls d → spots 0 d ls' = spots e d ls

/-- **What one call of `next` gives**, seen on the lines. -/
inductive Gives (ii : Layout) (query : SelectQuery) (labels : List TokenLabel)
    (C : List Spot → ℕ → Prop) (e : ℕ) (x : Line) (ls : List Line) :
    SelectCursor × Option SelectPosting → Prop where
  | none (data : SelectData) (h : ∀ d, Meets (x :: ls) d → C (spots e d (x :: ls)) 0) :
      Gives ii query labels C e x ls (⟨data, true⟩, none)
  | some (data : SelectData) (done : Bool) (posting : SelectPosting)
      (hmeets : Meets (x :: ls) posting.docid) (htf : posting.tf ≠ 0)
      (hcount : C (spots e posting.docid (x :: ls)) posting.tf)
      (hfirst : ∀ d < posting.docid, Meets (x :: ls) d → C (spots e d (x :: ls)) 0)
      (hrest : (done = true ∧ ∀ d, posting.docid < d → ¬ Meets (x :: ls) d) ∨
        (done = false ∧ ∃ x' ls', Ready ii query labels 0 data x' ls' ∧
          x'.occs.length < x.occs.length ∧ Advanced (fun _ _ => False) (x :: ls) (x' :: ls') ∧
          Behind e posting.docid (x :: ls) (x' :: ls'))) :
      Gives ii query labels C e x ls (⟨data, done⟩, some posting)

/-- Behind places at which nothing is counted the search is the same. -/
theorem Gives.of_advanced {r : SelectCursor × Option SelectPosting} {o : Occ} {os : List Occ}
    (h : Gives ii query labels C 0 x' ls' r)
    (hadv : Advanced (fun d' _ => b ≤ d') (x :: ls) (x' :: ls'))
    (hhead : x.occs = o :: os) (hlt : o.docid < b) (hfrom : ∀ o ∈ x'.occs, b ≤ o.docid)
    (hbelow : ∀ d < b, Meets (x :: ls) d → C (spots e d (x :: ls)) 0) :
    Gives ii query labels C e x ls r := by
  have hmeets : ∀ d, Meets (x' :: ls') d ↔ b ≤ d ∧ Meets (x :: ls) d := fun d => by
    constructor
    · intro hm
      obtain ⟨p, o', ho', rfl, -⟩ := hm x' List.mem_cons_self
      exact ⟨hfrom o' ho', hadv.meets_of hm⟩
    · rintro ⟨hd, hm⟩
      exact (hadv.meets fun _ => hd).2 hm
  have hspots : ∀ d, b ≤ d → spots 0 d (x' :: ls') = spots e d (x :: ls) := fun d hd =>
    hadv.spots_behind hhead hlt hd
  have hempty : ∀ d, (b ≤ d → Meets (x' :: ls') d → C (spots 0 d (x' :: ls')) 0) →
      Meets (x :: ls) d → C (spots e d (x :: ls)) 0 := fun d hd hm => by
    rcases lt_or_ge d b with hdb | hdb
    · exact hbelow d hdb hm
    · rw [← hspots d hdb]
      exact hd hdb ((hmeets d).2 ⟨hdb, hm⟩)
  cases h with
  | none data h => exact .none data fun d hm => hempty d (fun _ => h d) hm
  | some data done posting hm htf hcount hfirst hrest =>
    obtain ⟨hge, hm'⟩ := (hmeets _).1 hm
    refine .some data done posting hm' htf (hspots _ hge ▸ hcount)
      (fun d hd => hempty d fun _ => hfirst d hd) ?_
    rcases hrest with ⟨hdone, hn⟩ | ⟨hdone, x'', ls'', hready, hlen, hadv', hbehind⟩
    · exact .inl ⟨hdone, fun d hd hm => hn d hd ((hmeets d).2 ⟨hge.trans hd.le, hm⟩)⟩
    · have hle : x'.occs.length ≤ x.occs.length := by
        cases hadv with
        | cons hx _ => exact hx.suffix.length_le
      refine .inr ⟨hdone, x'', ls'', hready, hlen.trans_le hle,
        (hadv.mono fun _ _ h => h.elim).trans hadv', fun d => ?_, fun d hd hm => ?_⟩
      · rw [hbehind.meets, hmeets]
        constructor
        · rintro ⟨h1, -, h2⟩
          exact ⟨h1, h2⟩
        · rintro ⟨h1, h2⟩
          exact ⟨h1, hge.trans h1.le, h2⟩
      · have hdb := hge.trans hd.le
        rw [hbehind.spots d hd ((hmeets d).2 ⟨hdb, hm⟩), hspots d hdb]

/-- The first token goes on, and the search with it. -/
theorem skip_on {data : SelectData} {x₀ : Line} {ls₀ : List Line} {o : Occ} {os : List Occ}
    (hquery : data.toSelectQuery = query) (hlabels : (x :: ls).map Line.label = labels)
    (h : List.Forall₂ (Tracks ii True) data.tokenInfos (x :: ls)) (hsize : x.size < fuel)
    (hhead : x₀.occs = o :: os) (hnext : o.docid < data.next)
    (hadv : Advanced (fun d' _ => data.next ≤ d') (x₀ :: ls₀) (x :: ls))
    (hbelow : ∀ d < data.next, Meets (x₀ :: ls₀) d → C (spots e d (x₀ :: ls₀)) 0)
    (hgo : ∀ data' x' ls', Ready ii query labels 0 data' x' ls' →
      x'.occs.length < x₀.occs.length →
      Advanced (fun d' _ => data.next ≤ d') (x₀ :: ls₀) (x' :: ls') →
      ∃ r, SelectCursor.nextLoop ii fuel k data' = some r ∧
        Gives ii query labels C 0 x' ls' r) :
    ∃ r, (do
        let (data, ok) ← data.nextSkip ii fuel
        if !ok then return (⟨data, true⟩, none) else SelectCursor.nextLoop ii fuel k data) =
          some r ∧ Gives ii query labels C e x₀ ls₀ r := by
  obtain ⟨data', ok, x', hrun, hshort, hfrom, hor⟩ := nextSkip_spec hquery hlabels h hsize
  have hadv' : Advanced (fun d' _ => data.next ≤ d') (x₀ :: ls₀) (x' :: ls) :=
    hadv.trans (.cons hshort (Advanced.refl ls))
  rw [hrun]
  simp only [Option.bind_eq_bind, Option.bind_some]
  rcases hor with ⟨rfl, hready⟩ | ⟨rfl, hnone⟩
  · have hx₀ : Shortened (fun d' _ => data.next ≤ d') x₀ x' := by
      cases hadv' with
      | cons hx _ => exact hx
    have hlen : x'.occs.length < x₀.occs.length := hx₀.length_lt hhead hnext hfrom
    obtain ⟨r, hrun', hgives⟩ := hgo data' x' ls hready hlen hadv'
    exact ⟨r, by simpa using hrun', hgives.of_advanced hadv' hhead hnext hfrom hbelow⟩
  · refine ⟨_, rfl, .none data' fun d hm => ?_⟩
    rcases lt_or_ge d data.next with hlt | hge
    · exact hbelow d hlt hm
    · obtain ⟨p, hp⟩ := (hadv.meets fun _ => hge).2 hm x List.mem_cons_self
      exact absurd hp (hnone d p hge)

/-- Right behind a record and section comes the next section of the record. -/
theorem lt_succ_iff {d d' : Docid} : d' < ⟨d.rid, d.sid + 1⟩ ↔ d' ≤ d := by
  rw [Docid.lt_def, Docid.le_def]
  dsimp only
  omega

/-- The first token stays where it is while the others follow. -/
theorem spots_followed {keep : Docid → ℤ → Prop} (h : Advanced keep ls ls')
    (hkeep : ∀ p, keep d p) : spots e d (x :: ls') = spots e d (x :: ls) := by
  rw [spots, spots, h.map_spot hkeep]

/-- **The loop of `next`** goes to the first record and section in which something is counted. -/
theorem nextLoop_spec {data : SelectData} (hfinds : Finds ii query labels C e₀) (he : e ≤ e₀)
    (h : Ready ii query labels e data x ls) (hfits : Fits fuel (x :: ls))
    (hk : x.occs.length < k) :
    ∃ r, SelectCursor.nextLoop ii fuel k data = some r ∧ Gives ii query labels C e x ls r := by
  induction k generalizing data x ls e with
  | zero => omega
  | succ k ih =>
    obtain ⟨data₁, ok, hrun, hmet, o, os, hhead, ho⟩ :=
      prepare_spec h fun y hy => hfits.size y (List.mem_cons_of_mem _ hy)
    have hsize : x.size < fuel := hfits.size x List.mem_cons_self
    have hgo : ∀ b data' x' ls', Ready ii query labels 0 data' x' ls' →
        x'.occs.length < x.occs.length →
        Advanced (fun d' _ => b ≤ d') (x :: ls) (x' :: ls') →
        ∃ r, SelectCursor.nextLoop ii fuel k data' = some r ∧
          Gives ii query labels C 0 x' ls' r :=
      fun b data' x' ls' hready hlt hadv =>
        ih (Nat.zero_le _) hready (hfits.advanced hadv) (by omega)
    rw [SelectCursor.nextLoop, hrun]
    simp only [Option.bind_eq_bind, Option.bind_some]
    cases hmet with
    | passed hn => exact ⟨_, rfl, .none data₁ fun d hm => absurd hm (hn d)⟩
    | apart ls' hmay hquery htracks hadv hlt hn =>
      rw [hmay]
      simp only [Bool.not_true, Bool.not_false, Bool.false_eq_true, if_false, if_true]
      have hadv' : Advanced (fun d' _ => data₁.docid ≤ d') (x :: ls) (x :: ls') :=
        .cons .refl hadv
      have hlabels : (x :: ls').map Line.label = labels := by rw [hadv'.labels, h.labels]
      refine skip_on hquery hlabels htracks hsize hhead (by rw [ho]; exact hlt)
        (hadv'.mono fun d' _ hd' => hlt.le.trans hd') (fun d hd hm => absurd hm (hn d hd))
        fun data' x' ls' hr hl ha => ?_
      exact hgo _ data' x' ls' hr hl ha
    | together ls' hmay hat hadv hnext hn =>
      rw [hmay]
      simp only [Bool.not_true, Bool.false_eq_true, if_false]
      have hadv' : Advanced (fun d' _ => data₁.docid ≤ d') (x :: ls) (x :: ls') :=
        .cons .refl hadv
      obtain ⟨data₂, ls₂, hfind, hc⟩ :=
        hfinds e data₁ x ls' fuel he hat (hfits.advanced hadv')
      have hquery₂ : data₂.toSelectQuery = query := hc.query.trans hat.query
      have hmeets : ∀ d, data₁.docid ≤ d → (Meets (x :: ls') d ↔ Meets (x :: ls) d) :=
        fun d hd => hadv'.meets fun _ => hd
      have hcount : C (spots e data₁.docid (x :: ls)) data₂.nOccurrences := by
        have := hc.count
        rwa [@spots_followed _ _ _ _ ls' _ hadv fun _ => le_rfl] at this
      -- what is known of the records up to the next aim
      have hlt₂ : data₁.docid < data₂.next := by
        rcases hc.next with heq | ⟨hlt, -⟩
        · rw [heq, hnext]
          exact lt_succ_iff.2 le_rfl
        · exact hlt
      have hgap : ∀ d, data₁.docid < d → d < data₂.next → ¬ Meets (x :: ls) d := by
        intro d hd hd'
        rcases hc.next with heq | ⟨-, hnone⟩
        · rw [heq, hnext, lt_succ_iff] at hd'
          exact absurd hd (not_lt.2 hd')
        · rw [← hmeets d hd.le]
          exact hnone d hd hd'
      have hadv₂ : Advanced (fun d' _ => data₂.next ≤ d') (x :: ls) ls₂ :=
        (hadv'.mono fun d' _ hd' => hlt₂.le.trans hd').trans
          (hc.advanced.mono fun d' _ hd' => hlt₂.trans_le hd')
      obtain ⟨x₂, ls₂', rfl⟩ : ∃ x₂ ls₂', ls₂ = x₂ :: ls₂' := by
        cases hadv₂
        exact ⟨_, _, rfl⟩
      have hx₂ : Shortened (fun d' _ => data₂.next ≤ d') x x₂ := by
        cases hadv₂ with
        | cons hx _ => exact hx
      have hsize₂ : x₂.size < fuel := hx₂.size_le.trans_lt hsize
      have hlabels₂ : (x₂ :: ls₂').map Line.label = labels := by rw [hadv₂.labels, h.labels]
      rw [hfind]
      simp only [Option.bind_some]
      by_cases hzero : data₂.nOccurrences = 0
      · rw [if_pos hzero]
        rw [hzero] at hcount
        refine skip_on hquery₂ hlabels₂ hc.tracks hsize₂ hhead (by rw [ho]; exact hlt₂) hadv₂
          (fun d hd hm => ?_) fun data' x' ls' hr hl ha => hgo _ data' x' ls' hr hl ha
        rcases lt_trichotomy d data₁.docid with h1 | rfl | h1
        · exact absurd hm (hn d h1)
        · exact hcount
        · exact absurd hm (hgap d h1 hd)
      · rw [if_neg hzero]
        obtain ⟨data₃, ok₃, x₃, hrun₃, hshort₃, hfrom₃, hor⟩ :=
          nextSkip_spec hquery₂ hlabels₂ hc.tracks hsize₂
        rw [hrun₃]
        simp only [Option.bind_some]
        have hadv₃ : Advanced (fun d' _ => data₂.next ≤ d') (x :: ls) (x₃ :: ls₂') :=
          hadv₂.trans (.cons hshort₃ (Advanced.refl _))
        have hdocid : data₂.docid = data₁.docid := hc.docid
        have hmeets₁ : Meets (x :: ls) data₁.docid := by
          rw [← hmeets _ le_rfl]
          intro y hy
          obtain ⟨o', os', hhead', hd'⟩ := hat.inside y hy
          exact ⟨_, o', hhead' ▸ List.mem_cons_self, hd', rfl⟩
        refine ⟨_, rfl, .some data₃ (!ok₃) _ ?_ hzero ?_ (fun d hd hm => ?_) ?_⟩
        · exact hdocid ▸ hmeets₁
        · exact hdocid ▸ hcount
        · exact absurd hm (hn d (hdocid ▸ hd))
        · change _ ∨ (_ ∧ ∃ x' ls', _ ∧ _ ∧ _ ∧ Behind e data₂.docid _ _)
          rw [hdocid]
          rcases hor with ⟨rfl, hready⟩ | ⟨rfl, hnone⟩
          · refine .inr ⟨rfl, x₃, ls₂', hready, ?_, hadv₃.mono fun _ _ h => h.elim,
              fun d => ?_, fun d hd hm => ?_⟩
            · exact (hx₂.trans hshort₃).length_lt hhead (by rw [ho]; exact hlt₂) hfrom₃
            · constructor
              · intro hm
                obtain ⟨p, o', ho', rfl, -⟩ := hm x₃ List.mem_cons_self
                exact ⟨hlt₂.trans_le (hfrom₃ o' ho'), hadv₃.meets_of hm⟩
              · rintro ⟨hd, hm⟩
                rcases lt_or_ge d data₂.next with hlt | hge
                · exact absurd hm (hgap d hd hlt)
                · exact (hadv₃.meets fun _ => hge).2 hm
            · rcases lt_or_ge d data₂.next with hlt | hge
              · exact absurd hm (hgap d hd hlt)
              · exact hadv₃.spots_behind hhead (by rw [ho]; exact hlt₂) hge
          · refine .inl ⟨rfl, fun d (hd : data₁.docid < d) hm => ?_⟩
            rcases lt_or_ge d data₂.next with hlt | hge
            · exact hgap d hd hlt hm
            · obtain ⟨p, hp⟩ := (hadv₂.meets fun _ => hge).2 hm x₂ List.mem_cons_self
              exact hnone d p hge hp

end Records

/-! ## All the results -/

section Results

variable {query : SelectQuery} {labels : List TokenLabel} {C : List Spot → ℕ → Prop} {e e₀ : ℕ}
  {x : Line} {ls : List Line} {fuel k : ℕ}

/-- **The answer**: in order each record and section in which something is counted, once. -/
structure Answers (C : List Spot → ℕ → Prop) (meets : Docid → Prop) (spots : Docid → List Spot)
    (ps : List SelectPosting) : Prop where
  sorted : ps.Pairwise fun a b => a.docid < b.docid
  found : ∀ p ∈ ps, meets p.docid ∧ p.tf ≠ 0 ∧ C (spots p.docid) p.tf
  missed : ∀ d, meets d → (∀ p ∈ ps, p.docid ≠ d) → C (spots d) 0

/-- Where only zero counts. -/
theorem Answers.selected {P : List Spot → Prop} {meets : Docid → Prop} {spots : Docid → List Spot}
    {ps : List SelectPosting} {d : Docid}
    (h : Answers (fun ss n => n ≠ 0 ↔ P ss) meets spots ps) (hm : meets d) :
    (∃ p ∈ ps, p.docid = d) ↔ P (spots d) := by
  constructor
  · rintro ⟨p, hp, rfl⟩
    obtain ⟨-, htf, hcount⟩ := h.found p hp
    exact hcount.1 htf
  · intro hP
    by_contra hno
    exact (h.missed d hm fun p hp hd => hno ⟨p, hp, hd⟩).2 hP rfl

/-- **Calls of `next` until the end.** -/
theorem results_spec {data : SelectData} (hfinds : Finds ii query labels C e₀) (he : e ≤ e₀)
    (h : Ready ii query labels e data x ls) (hfits : Fits fuel (x :: ls))
    (hk : x.occs.length < k) :
    ∃ ps, SelectCursor.results ii fuel k ⟨data, false⟩ = some ps ∧
      Answers C (Meets (x :: ls)) (fun d => spots e d (x :: ls)) ps := by
  induction k generalizing data x ls e with
  | zero => omega
  | succ k ih =>
    obtain ⟨r, hrun, hgives⟩ := nextLoop_spec hfinds he h hfits (hfits.length x List.mem_cons_self)
    have hpos : 0 < x.occs.length := List.length_pos_iff.2 h.head
    rw [SelectCursor.results, SelectCursor.next, if_neg (by simp), hrun]
    cases hgives with
    | none data' hn => exact ⟨[], rfl, .nil, by simp, fun d hm _ => hn d hm⟩
    | some data' done posting hmeets htf hcount hfirst hrest =>
      -- the results behind the posting
      obtain ⟨ps, hrun', hsorted, hfound, hmissed⟩ : ∃ ps,
          SelectCursor.results ii fuel k ⟨data', done⟩ = some ps ∧
            ps.Pairwise (fun a b => a.docid < b.docid) ∧
            (∀ p ∈ ps, posting.docid < p.docid ∧ Meets (x :: ls) p.docid ∧ p.tf ≠ 0 ∧
              C (spots e p.docid (x :: ls)) p.tf) ∧
            ∀ d, posting.docid < d → Meets (x :: ls) d → (∀ p ∈ ps, p.docid ≠ d) →
              C (spots e d (x :: ls)) 0 := by
        rcases hrest with ⟨rfl, hn⟩ | ⟨rfl, x', ls', hready, hlt, hadv, hbehind⟩
        · obtain ⟨k, rfl⟩ : ∃ m, k = m + 1 := ⟨k - 1, by omega⟩
          exact ⟨[], by rw [SelectCursor.results, SelectCursor.next, if_pos rfl]; rfl, .nil,
            by simp, fun d hd hm => absurd hm (hn d hd)⟩
        · obtain ⟨ps, hrun', hsorted, hfound, hmissed⟩ :=
            ih (Nat.zero_le _) hready (hfits.advanced hadv) (by omega)
          refine ⟨ps, hrun', hsorted, fun p hp => ?_, fun d hd hm hps => ?_⟩
          · obtain ⟨hm, htf', hcount'⟩ := hfound p hp
            obtain ⟨hd, hm'⟩ := (hbehind.meets _).1 hm
            exact ⟨hd, hm', htf', hbehind.spots _ hd hm' ▸ hcount'⟩
          · rw [← hbehind.spots d hd hm]
            exact hmissed d ((hbehind.meets d).2 ⟨hd, hm⟩) hps
      refine ⟨posting :: ps, by rw [Option.bind_eq_bind, Option.bind_some]; simp only [hrun']; rfl,
        List.pairwise_cons.2 ⟨fun p hp => (hfound p hp).1, hsorted⟩, fun p hp => ?_,
        fun d hm hps => ?_⟩
      · rcases List.mem_cons.1 hp with rfl | hp
        · exact ⟨hmeets, htf, hcount⟩
        · exact (hfound p hp).2
      · rcases lt_trichotomy d posting.docid with hlt | rfl | hlt
        · exact hfirst d hlt hm
        · exact absurd rfl (hps posting List.mem_cons_self)
        · exact hmissed d hlt hm fun p hp => hps p (List.mem_cons_of_mem _ hp)

/-- There is fuel that is enough. -/
theorem exists_fits (ls : List Line) : ∃ N, ∀ fuel, N < fuel → Fits fuel ls := by
  obtain ⟨B, S, hall⟩ : ∃ (B : ℤ) (S : ℕ), ∀ x ∈ ls, x.size ≤ S ∧ x.occs.length ≤ S ∧
      ∀ o ∈ x.occs, x.rel o < B := by
    induction ls with
    | nil => exact ⟨0, 0, by simp⟩
    | cons x ls ih =>
      obtain ⟨B, S, hall⟩ := ih
      obtain ⟨C, hC⟩ : ∃ C : ℤ, ∀ o ∈ x.occs, x.rel o < C := by
        induction x.occs with
        | nil => exact ⟨0, by simp⟩
        | cons o os ih =>
          obtain ⟨C, hC⟩ := ih
          refine ⟨max C (x.rel o + 1), fun o' ho' => ?_⟩
          rcases List.mem_cons.1 ho' with rfl | ho'
          · exact lt_max_of_lt_right (by omega)
          · exact lt_max_of_lt_left (hC o' ho')
      refine ⟨max B C, max S (max x.size x.occs.length), fun y hy => ?_⟩
      rcases List.mem_cons.1 hy with rfl | hy
      · exact ⟨by omega, by omega, fun o ho => lt_max_of_lt_right (hC o ho)⟩
      · obtain ⟨h1, h2, h3⟩ := hall y hy
        exact ⟨by omega, by omega, fun o ho => lt_max_of_lt_left (h3 o ho)⟩
  refine ⟨max S (max ((ls.map fun x => x.occs.length).sum + ls.length) ((B.toNat + 2) * (ls.length + 2))),
    fun fuel hfuel => ⟨fun x hx => ?_, fun x hx => ?_, by omega, B, fun x hx => (hall x hx).2.2,
      by omega⟩⟩
  · have := (hall x hx).1
    omega
  · have := (hall x hx).2.1
    omega

end Results

/-! ## The answer to a query -/

section Query

variable {query : SelectQuery} {C : List Spot → ℕ → Prop} {fuel : ℕ}

/-- The label that a token has in the search. -/
def QueryToken.labelIn (noOffset : Bool) (q : QueryToken) : TokenLabel :=
  if noOffset then { q.toTokenLabel with offset := 0 } else q.toTokenLabel

/-- By how much the position of the first token is too low when the search begins. -/
def earlyOf (noOffset : Bool) (qs : List QueryToken) : ℕ :=
  if noOffset then (qs.head?.map fun q => q.offset).getD 0 else 0

/-- The positions of a token in a record and section, by the postings of its terms. -/
def placesIn (label : TokenLabel) (hs : List Hit) (d : Docid) : Set ℤ :=
  {p | ∃ h ∈ hs, h.docid = d ∧ ∃ r ∈ h.pos, p = (r : ℤ) - label.offset}

/-- The first place of a token of all. -/
def IsFirst (hs : List Hit) (o : Occ) : Prop :=
  (∃ h ∈ hs, h.docid = o.docid ∧ o.pos ∈ h.pos) ∧ ∀ h ∈ hs, ∀ r ∈ h.pos, o ≤ ⟨h.docid, r⟩

def spotsIn (e : ℕ) (d : Docid) : List (TokenLabel × List Hit) → List Spot
  | [] => []
  | z :: zs =>
    ⟨z.1, {p | p ∈ placesIn z.1 z.2 d ∨
      ∃ o, IsFirst z.2 o ∧ o.docid = d ∧ p = (o.pos : ℤ) - z.1.offset - e}⟩ ::
      zs.map fun z => ⟨z.1, placesIn z.1 z.2 d⟩

/-- Where nothing is early the positions are those of the postings. -/
theorem spotsIn_zero (d : Docid) (zs : List (TokenLabel × List Hit)) :
    spotsIn 0 d zs = zs.map fun z => ⟨z.1, placesIn z.1 z.2 d⟩ := by
  cases zs with
  | nil => rfl
  | cons z zs =>
    rw [spotsIn, List.map_cons]
    congr 2
    ext p
    simp only [Set.mem_ofPred_eq, or_iff_left_iff_imp]
    rintro ⟨o, ⟨⟨h, hh, hd, hr⟩, -⟩, rfl, rfl⟩
    exact ⟨h, hh, hd, o.pos, hr, by simp⟩

/-- All the tokens occur. -/
def meetsIn (d : Docid) (zs : List (TokenLabel × List Hit)) : Prop :=
  ∀ z ∈ zs, (placesIn z.1 z.2 d).Nonempty

/-- The tokens of a query with the postings of their terms. -/
def tokensIn (noOffset : Bool) (qs : List QueryToken) (hsss : List (List (List Hit))) :
    List (TokenLabel × List Hit) :=
  (qs.map (QueryToken.labelIn noOffset)).zip (hsss.map List.flatten)

/-- A line that holds the places of a token. -/
structure Line.Of (x : Line) (z : TokenLabel × List Hit) : Prop where
  label : x.label = z.1
  places : ∀ o, o ∈ x.occs ↔ ∃ h ∈ z.2, h.docid = o.docid ∧ o.pos ∈ h.pos
  sorted : x.occs.Pairwise (· ≤ ·)

theorem Line.Of.occursAt {x : Line} {z : TokenLabel × List Hit} (h : x.Of z) {d : Docid} {p : ℤ} :
    x.OccursAt d p ↔ p ∈ placesIn z.1 z.2 d := by
  constructor
  · rintro ⟨o, ho, rfl, rfl⟩
    obtain ⟨y, hy, hd, hpos⟩ := (h.places o).1 ho
    exact ⟨y, hy, hd, o.pos, hpos, by rw [rel, h.label]⟩
  · rintro ⟨y, hy, rfl, r, hr, rfl⟩
    exact ⟨⟨y.docid, r⟩, (h.places _).2 ⟨y, hy, rfl, hr⟩, rfl, by rw [rel, h.label]⟩

theorem Line.Of.isFirst {x : Line} {z : TokenLabel × List Hit} (h : x.Of z) {o : Occ} :
    o ∈ x.occs.head? ↔ IsFirst z.2 o := by
  constructor
  · intro ho
    obtain ⟨os, hhead⟩ : ∃ os, x.occs = o :: os := by
      cases hx : x.occs with
      | nil => rw [hx] at ho; cases ho
      | cons o' os => rw [hx] at ho; cases ho; exact ⟨os, rfl⟩
    refine ⟨(h.places o).1 (List.mem_of_mem_head? ho), fun y hy r hr => ?_⟩
    exact head_le h.sorted hhead ((h.places _).2 ⟨y, hy, rfl, hr⟩)
  · rintro ⟨hmem, hle⟩
    have ho := (h.places o).2 hmem
    cases hx : x.occs with
    | nil => rw [hx] at ho; cases ho
    | cons o' os =>
      have hmem' : o' ∈ x.occs := by rw [hx]; exact List.mem_cons_self
      obtain ⟨y, hy, hd, hpos⟩ := (h.places o').1 hmem'
      have h1 : o ≤ o' := by
        have := hle y hy o'.pos hpos
        rwa [hd] at this
      rw [le_antisymm h1 (head_le h.sorted hx ho)]
      rfl

theorem spots_of {ls : List Line} {zs : List (TokenLabel × List Hit)}
    (h : List.Forall₂ Line.Of ls zs) (e : ℕ) (d : Docid) : spots e d ls = spotsIn e d zs := by
  have hmap : ∀ {ls : List Line} {zs : List (TokenLabel × List Hit)},
      List.Forall₂ Line.Of ls zs →
        ls.map (spot d) = zs.map fun z => (⟨z.1, placesIn z.1 z.2 d⟩ : Spot) := by
    intro ls zs h
    induction h with
    | nil => rfl
    | @cons x z ls zs hx _ ih =>
      rw [List.map_cons, List.map_cons, ih, spot, hx.label]
      congr 2
      ext p
      exact hx.occursAt
  cases h with
  | nil => rfl
  | @cons x z ls zs hx hls =>
    rw [spots, spotsIn, hmap hls, Line.early, hx.label]
    congr 2
    ext p
    refine or_congr hx.occursAt (exists_congr fun o => ?_)
    rw [hx.isFirst, rel, hx.label]

theorem meets_of {ls : List Line} {zs : List (TokenLabel × List Hit)}
    (h : List.Forall₂ Line.Of ls zs) (d : Docid) : Meets ls d ↔ meetsIn d zs := by
  induction h with
  | nil => simp [Meets, meetsIn]
  | @cons x z ls zs hx _ ih =>
    unfold Meets meetsIn at ih ⊢
    rw [List.forall_mem_cons, List.forall_mem_cons, ih]
    refine and_congr_left fun _ => exists_congr fun p => ?_
    exact hx.occursAt

theorem labels_of {ls : List Line} {zs : List (TokenLabel × List Hit)}
    (h : List.Forall₂ Line.Of ls zs) : ls.map Line.label = zs.map Prod.fst := by
  induction h with
  | nil => rfl
  | cons hx _ ih => rw [List.map_cons, List.map_cons, hx.label, ih]

/-- The line of a token info that is opened; without one there is no place. -/
theorem exists_line {q : QueryToken} {hss : List (List Hit)} (noOffset : Bool)
    (hterms : List.Forall₂ (Term.Holds ii) q.terms hss) (hsafe : ∀ t ∈ q.terms, t.SkipSafe) :
    ∃ (x : Line) (ti : Option TokenInfo), TokenInfo.open' ii q = some ti ∧
      x.Of (q.labelIn noOffset, hss.flatten) ∧ (ti = none → x.occs = []) ∧
      ∀ t, ti = some t →
        Tracks ii True (if noOffset then t.clearOffset else t) x ∧ x.occs ≠ [] ∧
          ∀ o ∈ x.occs.head?, t.pos = x.rel o - earlyOf noOffset [q] := by
  obtain ⟨bins, n, os, hrun, hs, hos⟩ :=
    @CursorHeap.pushAll_spec ii True q.terms hss 0 hterms (fun _ => hsafe) (.inl trivial)
  rw [CursorHeap.flatten_atLeast_zero] at hos
  obtain ⟨-, -, -, -, hsorted⟩ := id hs
  have hof : (⟨q.labelIn noOffset, n, os⟩ : Line).Of (q.labelIn noOffset, hss.flatten) := by
    refine ⟨rfl, fun o => ?_, hsorted⟩
    rw [hos.mem_iff, List.mem_flatMap]
    refine exists_congr fun h => and_congr_right fun _ => ?_
    rw [CursorHeap.occsOf, List.mem_map]
    constructor
    · rintro ⟨r, hr, rfl⟩
      exact ⟨rfl, hr⟩
    · rintro ⟨hd, hr⟩
      exact ⟨o.pos, hr, by rw [hd]⟩
  cases bins with
  | nil =>
    refine ⟨_, none, ?_, hof, fun _ => hs.nil, fun t ht => by simp at ht⟩
    rw [TokenInfo.open', hrun]
    rfl
  | cons c bins =>
    obtain ⟨os', rfl⟩ := hs.cons
    refine ⟨_, some (.ofCursors q.toTokenLabel c bins), ?_, hof, by simp, fun t ht => ?_⟩
    · rw [TokenInfo.open', hrun]
      rfl
    · cases ht
      refine ⟨?_, by simp, ?_⟩
      · cases noOffset with
        | true => exact ⟨hs, rfl, by rintro o ⟨⟩; rfl⟩
        | false => exact ⟨hs, rfl, by rintro o ⟨⟩; rfl⟩
      · rintro o ⟨⟩
        cases noOffset with
        | true => simp [rel, QueryToken.labelIn, earlyOf, TokenInfo.ofCursors, Cursor.occ]
        | false => simp [rel, QueryToken.labelIn, earlyOf, TokenInfo.ofCursors, Cursor.occ]

/-- The lines of a query. -/
theorem exists_lines {qs : List QueryToken} {hsss : List (List (List Hit))} (noOffset : Bool)
    (hterms : List.Forall₂ (fun q hss => List.Forall₂ (Term.Holds ii) q.terms hss) qs hsss)
    (hsafe : ∀ q ∈ qs, ∀ t ∈ q.terms, t.SkipSafe) :
    ∃ (ls : List Line) (otis : List (Option TokenInfo)),
      qs.mapM (TokenInfo.open' ii) = some otis ∧
      List.Forall₂ Line.Of ls (tokensIn noOffset qs hsss) ∧
      (otis.mapM id = none → ∃ x ∈ ls, x.occs = []) ∧
      ∀ tis, otis.mapM id = some tis →
        List.Forall₂ (Tracks ii True)
          (if noOffset then tis.map TokenInfo.clearOffset else tis) ls ∧
          (∀ x ∈ ls, x.occs ≠ []) ∧
          ∀ ti ∈ tis.head?, ∀ x ∈ ls.head?, ∀ o ∈ x.occs.head?,
            ti.pos = x.rel o - earlyOf noOffset qs := by
  induction hterms with
  | nil =>
    refine ⟨[], [], rfl, .nil, nofun, fun tis h => ?_⟩
    cases h
    cases noOffset <;> exact ⟨.nil, by simp, by simp⟩
  | @cons q hss qs hsss hq _ ih =>
    obtain ⟨x, ti, hrun, hof, hnone, hsome⟩ := exists_line noOffset hq (hsafe q List.mem_cons_self)
    obtain ⟨ls, otis, hruns, hofs, hnones, hsomes⟩ :=
      ih fun q hq => hsafe q (List.mem_cons_of_mem _ hq)
    refine ⟨x :: ls, ti :: otis, ?_, .cons hof hofs, fun h => ?_, fun tis h => ?_⟩
    · rw [List.mapM_cons, hrun, hruns]
      rfl
    · cases ti with
      | none => exact ⟨x, List.mem_cons_self, hnone rfl⟩
      | some ti =>
        cases hotis : otis.mapM id with
        | none =>
          obtain ⟨y, hy, he⟩ := hnones hotis
          exact ⟨y, List.mem_cons_of_mem _ hy, he⟩
        | some tis => simp [List.mapM_cons, hotis] at h
    · cases ti with
      | none => simp [List.mapM_cons] at h
      | some ti =>
        cases hotis : otis.mapM id with
        | none => simp [List.mapM_cons, hotis] at h
        | some tis' =>
          obtain rfl : ti :: tis' = tis := by simpa [List.mapM_cons, hotis] using h
          obtain ⟨htrack, hne, hpos⟩ := hsome ti rfl
          obtain ⟨htracks, hnes, -⟩ := hsomes tis' hotis
          refine ⟨?_, fun y hy => ?_, ?_⟩
          · cases noOffset <;> exact .cons htrack htracks
          · rcases List.mem_cons.1 hy with rfl | hy
            · exact hne
            · exact hnes y hy
          · rintro _ ⟨⟩ _ ⟨⟩ o ho
            exact hpos o ho

/-- **The answer of a search**, where no chunk of the terms seems to end too early. -/
theorem select_spec {qs : List QueryToken} {hsss : List (List (List Hit))} {noOffset : Bool}
    (hne : qs ≠ [])
    (hterms : List.Forall₂ (fun q hss => List.Forall₂ (Term.Holds ii) q.terms hss) qs hsss)
    (hsafe : ∀ q ∈ qs, ∀ t ∈ q.terms, t.SkipSafe)
    (hfinds : Finds ii query (qs.map (QueryToken.labelIn noOffset)) C (earlyOf noOffset qs)) :
    ∃ N, ∀ fuel, N < fuel → ∃ ps, SelectCursor.select ii fuel query noOffset qs = some ps ∧
      Answers C (fun d => meetsIn d (tokensIn noOffset qs hsss))
        (fun d => spotsIn (earlyOf noOffset qs) d (tokensIn noOffset qs hsss)) ps := by
  obtain ⟨ls, otis, hopen, hofs, hnone, hsome⟩ := exists_lines noOffset hterms hsafe
  obtain ⟨N, hN⟩ := exists_fits ls
  refine ⟨N, fun fuel hfuel => ?_⟩
  rw [SelectCursor.select, hopen]
  cases htis : otis.mapM id with
  | none =>
    -- a token without a place occurs nowhere
    obtain ⟨x, hx, he⟩ := hnone htis
    refine ⟨[], by simp [htis], .nil, by simp, fun d hm => ?_⟩
    obtain ⟨p, o, ho, -⟩ := (meets_of hofs d).2 hm x hx
    rw [he] at ho
    cases ho
  | some tis =>
    obtain ⟨htracks, hnes, hearly⟩ := hsome tis htis
    have hlabels : ls.map Line.label = qs.map (QueryToken.labelIn noOffset) := by
      have hlen : qs.length = hsss.length := hterms.length_eq
      rw [labels_of hofs, tokensIn, List.map_fst_zip]
      rw [List.length_map, List.length_map, hlen]
    cases ls with
    | nil =>
      rw [List.map_nil, eq_comm, List.map_eq_nil_iff] at hlabels
      exact absurd hlabels hne
    | cons x ls =>
      have hready : Ready ii query (qs.map (QueryToken.labelIn noOffset)) (earlyOf noOffset qs)
          (SelectCursor.open' query
            (if noOffset then tis.map TokenInfo.clearOffset else tis)).data x ls := by
        refine ⟨rfl, hlabels, htracks, hnes x List.mem_cons_self, fun ti hti o ho => ?_⟩
        cases tis with
        | nil => cases noOffset <;> cases hti
        | cons t tis =>
          have := hearly t rfl x rfl o ho
          cases noOffset <;> (cases hti; exact this)
      have hfits := hN fuel hfuel
      obtain ⟨ps, hrun, hsorted, hfound, hmissed⟩ :=
        results_spec hfinds le_rfl hready hfits (hfits.length x List.mem_cons_self)
      refine ⟨ps, ?_, hsorted, fun p hp => ?_, fun d hm hps => ?_⟩
      · rw [Option.bind_eq_bind, Option.bind_some, htis]
        exact hrun
      · rw [← meets_of hofs, ← spots_of hofs]
        exact hfound p hp
      · rw [← spots_of hofs]
        exact hmissed d ((meets_of hofs d).2 hm) hps

end Query

end Groonga.Ii
