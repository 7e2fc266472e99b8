import Groonga.Ii.NearLoop
import Groonga.Ii.Skipping

/-!
# Near search

The token that is furthest behind is moved on: so far that it may be in a window with the one that
is furthest in front. No place that is left out was in a window with places of all the others,
and so a window is found whenever there is one.

What is searched are the positions that the token infos have. With offsets that were cleared after
the token infos had been opened, the position of the first one is not one of its places at first.
-/

namespace Groonga.Ii

open Line Lib

variable {ii : Layout} {query : SelectQuery} {d : Docid} {ls₀ : List Line} {next₀ : Docid}
  {fuel k : ℕ}

/-! ## Windows -/

/-- Places, one of each item, no two of them further apart than the interval. A negative interval
has no limit. -/
def Window (maxInterval : ℤ) (reps : List ℕ) (S : ℕ → Set ℤ) : Prop :=
  ∃ c : ℕ → ℤ, (∀ i ∈ reps, c i ∈ S i) ∧
    (maxInterval < 0 ∨ ∀ i ∈ reps, ∀ j ∈ reps, c j - c i ≤ maxInterval)

/-- Left out are places of `a` that are too far from all places of `b`. -/
theorem window_update {maxInterval : ℤ} {reps : List ℕ} {S : ℕ → Set ℤ} {a b : ℕ} {q : ℤ}
    (hmax : 0 ≤ maxInterval) (ha : a ∈ reps) (hb : b ∈ reps) (hq : ∀ p ∈ S b, q ≤ p) :
    Window maxInterval reps (Function.update S a (S a ∩ Set.Ici (q - maxInterval))) ↔
      Window maxInterval reps S := by
  constructor
  · rintro ⟨c, hc, hor⟩
    refine ⟨c, fun i hi => ?_, hor⟩
    have := hc i hi
    by_cases hia : i = a
    · subst hia
      rw [Function.update_self] at this
      exact this.1
    · rwa [Function.update_of_ne hia] at this
  · rintro ⟨c, hc, hor⟩
    refine ⟨c, fun i hi => ?_, hor⟩
    by_cases hia : i = a
    · subst hia
      rw [Function.update_self]
      refine ⟨hc i hi, ?_⟩
      have hnear := hor.resolve_left (not_lt.2 hmax) i hi b hb
      have hle := hq (c b) (hc b hb)
      simp only [Set.mem_Ici]
      omega
    · rw [Function.update_of_ne hia]
      exact hc i hi

/-! ## The loop -/

section Loop

variable {reps : List ℕ} {V : SelectData → (ℕ → Set ℤ) → Prop} {data : SelectData}
  {bt : EndedTree ℕ} {S : ℕ → Set ℤ}

/-- What makes a window when no token is to be the last. -/
theorem Scan.matched_near (h : Scan reps V data bt S) (hmode : data.mode = .near)
    (hlast : ∀ i ∈ reps, data.mustLastAt i = false) {a b : ℕ}
    (hmin : data.minInterval ≤ 0) (hle : data.posAt a ≤ data.posAt b) :
    data.matched bt b (data.interval a b) = true ↔
      data.maxInterval < 0 ∨ data.posAt b - data.posAt a ≤ data.maxInterval := by
  have hcount : bt.items.countP data.mustLastAt = 0 := by
    refine List.countP_eq_zero.2 fun i hi => ?_
    rw [hlast i (h.perm.subset hi)]
    exact Bool.false_ne_true
  have hinterval : data.interval a b = data.posAt b - data.posAt a := by
    rw [SelectData.interval, hmode]
    rfl
  have hge : data.minInterval ≤ data.posAt b - data.posAt a := by omega
  rw [SelectData.matched, hcount, hmode, hinterval]
  simp [hge]

/-- **The loop finds a window if there is one.** -/
theorem nearLoop_near (hm : Moving ii query d ls₀ next₀ fuel reps V) (hnodup : reps.Nodup)
    (hne : reps ≠ []) (hmode : query.mode = .near) (hmin : query.minInterval ≤ 0)
    (hreps : ∀ i ∈ reps, ∃ x ∈ ls₀[i]?, x.label.mustLast = false)
    (h : Scan reps V data bt S) (hk : nPlaces reps S < k) :
    ∃ data', SelectData.nearLoop ii fuel k bt data = some (some data') ∧
      Rests ii query d ls₀ next₀ data' ∧ data.nOccurrences ≤ data'.nOccurrences ∧
      (data.nOccurrences = 0 →
        (data'.nOccurrences ≠ 0 ↔ Window query.maxInterval reps S)) := by
  induction k generalizing data bt S with
  | zero => omega
  | succ k ih =>
    have hquery := hm.query_eq h.view
    have hmode' : data.mode = .near := (congrArg SelectQuery.mode hquery).trans hmode
    have hlast : ∀ i ∈ reps, data.mustLastAt i = false := fun i hi => by
      obtain ⟨x, hx, hfalse⟩ := hreps i hi
      obtain ⟨ti, hti, hlabel⟩ := (hm.rests h.view).token hx
      rw [SelectData.mustLastAt, hti]
      exact (congrArg TokenLabel.mustLast hlabel).trans hfalse
    obtain ⟨a, b, ha, hb, hends, data', pos, hpos, hocc, hturn⟩ := h.turn hm hnodup hne k
    have hmatched := h.matched_near hmode' hlast
      ((congrArg SelectQuery.minInterval hquery).trans_le hmin) (hends b hb).1
    have hmax : data.maxInterval = query.maxInterval := congrArg SelectQuery.maxInterval hquery
    rw [hmax] at hmatched
    have hleast := hm.least h.view
    by_cases hmat : data.matched bt b (data.interval a b) = true
    · -- a window: the positions of the items are one
      rw [if_pos hmat] at hocc
      have hwindow : Window query.maxInterval reps S := by
        refine ⟨data.posAt, fun i hi => (hleast i hi).1, (hmatched.1 hmat).imp_right ?_⟩
        intro hle i hi j hj
        have h1 := (hends i hi).1
        have h2 := (hends j hj).2
        omega
      rcases hturn with ⟨hrun, -, hrests⟩ | ⟨hscan, -, c, -, -, hrun⟩
      · exact ⟨data', hrun, hrests, by omega, fun _ => iff_of_true (by omega) hwindow⟩
      · have hmode₂ : data'.mode = .near :=
          (congrArg SelectQuery.mode (hm.query_eq hscan.view)).trans hmode
        rw [if_neg (by simp [hmode₂, Mode.ofPhrases])] at hrun
        have hlt := nPlaces_lt ha (hm.finite h.view a ha) (hleast a ha).1
          (hpos ▸ SelectData.posAt_lt_aim (hends b hb).1)
        obtain ⟨data'', hrun', hrests, hle, -⟩ := ih hscan (by omega)
        exact ⟨data'', hrun.trans hrun', hrests, by omega,
          fun _ => iff_of_true (by omega) hwindow⟩
    · -- the first item is too far behind the last
      rw [if_neg hmat] at hocc
      have hfar := not_or.1 (mt hmatched.2 hmat)
      have hpos' : pos = data.posAt b - query.maxInterval := by
        rw [hpos, SelectData.aim, hmode', if_neg (by simp [Mode.ofPhrases]), if_neg hmat, hmax,
          if_neg (by omega)]
      have hupdate := @window_update query.maxInterval reps S a b (data.posAt b) (by omega) ha hb
        fun p hp => (hleast b hb).2 hp
      rw [← hpos'] at hupdate
      rcases hturn with ⟨hrun, hlow, hrests⟩ | ⟨hscan, -, c, -, -, hrun⟩
      · refine ⟨data', hrun, hrests, by omega, fun hzero => iff_of_false (by omega) ?_⟩
        intro hwindow
        obtain ⟨c, hc, -⟩ := hupdate.2 hwindow
        have := hc a ha
        rw [Function.update_self] at this
        exact absurd (hlow _ this.1) (not_lt.2 this.2)
      · have hmode₂ : data'.mode = .near :=
          (congrArg SelectQuery.mode (hm.query_eq hscan.view)).trans hmode
        rw [if_neg (by simp [hmode₂, Mode.ofPhrases])] at hrun
        have hlt := nPlaces_lt ha (hm.finite h.view a ha) (hleast a ha).1
          (hpos ▸ SelectData.posAt_lt_aim (hends b hb).1)
        obtain ⟨data'', hrun', hrests, hle, hiff⟩ := ih hscan (by omega)
        exact ⟨data'', hrun.trans hrun', hrests, by omega,
          fun hzero => (hiff (by omega)).trans hupdate⟩

end Loop

/-! ## The tokens as items -/

section View

variable {data : SelectData} {S : ℕ → Set ℤ} {x : Line} {e : ℕ}

/-- Each token is an item. Its places are its position and those that are left. -/
structure NearView (ii : Layout) (query : SelectQuery) (d : Docid) (ls₀ : List Line)
    (next₀ : Docid) (data : SelectData) (S : ℕ → Set ℤ) : Prop where
  view : ∃ ls, InRecord ii query d ls₀ next₀ data ls ∧
    ∀ i ti x, data.tokenInfos[i]? = some ti → ls[i]? = some x →
      S i = insert ti.pos {p | x.OccursAt d p} ∧ ∀ p, x.OccursAt d p → ti.pos ≤ p

/-- The token and the line of an item. -/
theorem InRecord.item {ls : List Line} {i : ℕ} (h : InRecord ii query d ls₀ next₀ data ls)
    (hi : i ∈ List.range ls₀.length) :
    ∃ ti x, data.tokenInfos[i]? = some ti ∧ ls[i]? = some x := by
  rw [List.mem_range, h.advanced.length_eq] at hi
  have hx := List.getElem?_eq_getElem hi
  obtain ⟨ti, hti, -⟩ := getElem?_of_forall₂ h.tracks hx
  exact ⟨ti, _, hti, hx⟩

/-- Tokens are moved on by `skip_pos`. -/
theorem moving_near (hmode : query.mode = .near) (hfrom : From d ls₀)
    (hlength : ∀ x ∈ ls₀, x.occs.length < fuel) :
    Moving ii query d ls₀ next₀ fuel (List.range ls₀.length)
      (NearView ii query d ls₀ next₀) where
  query_eq h := by
    obtain ⟨ls, hrec, -⟩ := h.view
    exact hrec.query
  frame i n h := by
    obtain ⟨ls, hrec, hitems⟩ := h.view
    exact ⟨ls, { hrec with }, hitems⟩
  rests h := by
    obtain ⟨ls, hrec, -⟩ := h.view
    exact hrec.rests
  least h i hi := by
    obtain ⟨ls, hrec, hitems⟩ := h.view
    obtain ⟨ti, x, hti, hx⟩ := hrec.item hi
    obtain ⟨hS, hle⟩ := hitems i ti x hti hx
    rw [posAt_of_getElem? hti, hS]
    refine ⟨Set.mem_insert _ _, fun p hp => ?_⟩
    rcases hp with rfl | hp
    · exact le_rfl
    · exact hle p hp
  finite h i hi := by
    obtain ⟨ls, hrec, hitems⟩ := h.view
    obtain ⟨ti, x, hti, hx⟩ := hrec.item hi
    rw [(hitems i ti x hti hx).1]
    exact (occursAt_finite x d).insert _
  move {data S} i pos h hcur hi hlt := by
    obtain ⟨ls, hrec, hitems⟩ := h.view
    obtain ⟨ti, x, hti, hx⟩ := hrec.item hi
    obtain ⟨hS, hle⟩ := hitems i ti x hti hx
    rw [posAt_of_getElem? hti] at hlt
    subst hcur
    obtain ⟨data', ok, hrun, hocc, hor⟩ := hrec.skipPos hfrom hlength hx pos
    refine ⟨data', ok, ?_, hocc, ?_⟩
    · rw [SelectData.move, hrec.query, hmode]
      exact hrun
    rcases hor with ⟨hok, hlow, hrests⟩ | ⟨ti', x', hok, rfl, hrec', hshort, htrack, hge, hat⟩
    · refine .inl ⟨hok, fun p hp => ?_, hrests⟩
      rw [hS] at hp
      rcases hp with rfl | hp
      · exact hlt
      · exact hlow p hp
    · have hbound : data.currentTokenInfo < data.tokenInfos.length :=
        (List.getElem?_eq_some_iff.1 hti).1
      have hbound' : data.currentTokenInfo < ls.length := (List.getElem?_eq_some_iff.1 hx).1
      refine .inr ⟨hok, ⟨_, hrec', fun j tj y htj hy => ?_⟩, fun j _ hne => ?_⟩
      · by_cases hj : j = data.currentTokenInfo
        · subst hj
          rw [List.getElem?_set_self hbound] at htj
          rw [List.getElem?_set_self hbound'] at hy
          cases htj
          cases hy
          refine ⟨?_, fun p hp => hat.le htrack.sorted hp⟩
          rw [Function.update_self, hS]
          ext p
          simp only [Set.mem_inter_iff, Set.mem_insert_iff, Set.mem_ofPred_eq, Set.mem_Ici]
          constructor
          · rintro ⟨rfl | hp, hge'⟩
            · exact absurd hlt (not_lt.2 hge')
            · exact .inr (hshort.kept d p (fun _ => hge') hp)
          · rintro (rfl | hp)
            · exact ⟨.inr (hshort.occursAt hat.occursAt), hge⟩
            · exact ⟨.inr (hshort.occursAt hp), hge.trans (hat.le htrack.sorted hp)⟩
        · rw [List.getElem?_set_ne (Ne.symm hj)] at htj hy
          rw [Function.update_of_ne hj]
          exact hitems j tj y htj hy
      · rw [posAt_set hbound, if_neg hne]

/-! ## Near search in a record -/

/-- Near positions of all the tokens. -/
def NearMatch (maxInterval : ℤ) (ss : List Spot) : Prop :=
  Window maxInterval (List.range ss.length) fun i => {p | ∃ s ∈ ss[i]?, p ∈ s.places}

/-- What near search counts: it is zero where there is no window. -/
def NearCount (maxInterval : ℤ) (ss : List Spot) (n : ℕ) : Prop :=
  n ≠ 0 ↔ NearMatch maxInterval ss

/-- The items at the beginning. -/
theorem AtRecord.items {labels : List TokenLabel} {ls : List Line} {ti : TokenInfo} {y : Line}
    {i : ℕ} (h : AtRecord ii query labels e data x ls) (hti : data.tokenInfos[i]? = some ti)
    (hy : (x :: ls)[i]? = some y) :
    {p | ∃ s ∈ (spots e data.docid (x :: ls))[i]?, p ∈ s.places} =
        insert ti.pos {p | y.OccursAt data.docid p} ∧
      ∀ p, y.OccursAt data.docid p → ti.pos ≤ p := by
  obtain ⟨o, os, hhead, hd⟩ := h.inside y (List.mem_of_getElem? hy)
  obtain ⟨tj, htj, htrack⟩ := getElem?_of_forall₂ h.tracks hy
  obtain rfl : ti = tj := Option.some.inj (hti.symm.trans htj)
  have hrel : y.IsAt data.docid (y.rel o) := ⟨o, os, hhead, hd, rfl⟩
  cases i with
  | zero =>
    cases hy
    have hpos : ti.pos = x.rel o - e :=
      h.early ti (by rw [List.head?_eq_getElem?]; exact hti) o (by rw [hhead]; rfl)
    refine ⟨?_, fun p hp => ?_⟩
    · ext p
      simp only [spots, List.getElem?_cons_zero, Option.mem_some_iff, exists_eq_left', Line.early,
        Set.mem_ofPred_eq, Set.mem_insert_iff, hhead, List.head?_cons]
      rw [or_comm, hpos]
      exact or_congr_left (and_iff_right hd)
    · have := hrel.le htrack.sorted hp
      omega
  | succ i =>
    have hpos : ti.pos = y.rel o := by
      obtain ⟨tj, htj, hplaced⟩ := getElem?_of_forall₂ h.placed hy
      rw [List.getElem?_tail] at htj
      obtain rfl : ti = tj := Option.some.inj (hti.symm.trans htj)
      exact hplaced o (by rw [hhead]; rfl)
    rw [List.getElem?_cons_succ] at hy
    refine ⟨?_, fun p hp => hpos ▸ hrel.le htrack.sorted hp⟩
    ext p
    simp only [spots, List.getElem?_cons_succ, List.getElem?_map, hy, Option.map_some,
      Option.mem_some_iff, exists_eq_left', spot, Set.mem_ofPred_eq, Set.mem_insert_iff]
    refine ⟨.inr, ?_⟩
    rintro (rfl | hp)
    · exact hpos ▸ hrel.occursAt
    · exact hp

/-- **`find` counts windows** of the positions that the tokens have. -/
theorem finds_near {labels : List TokenLabel} (hmode : query.mode = .near)
    (hmin : query.minInterval ≤ 0) (hlast : ∀ l ∈ labels, l.mustLast = false) (e₀ : ℕ) :
    Finds ii query labels (NearCount query.maxInterval) e₀ := by
  intro e data x ls fuel he hat hfits
  have hmode' : data.mode = .near := (congrArg SelectQuery.mode hat.query).trans hmode
  set S : ℕ → Set ℤ := fun i => {p | ∃ s ∈ (spots e data.docid (x :: ls))[i]?, p ∈ s.places}
    with hS
  set data₀ : SelectData := { data with startPos := 0, endPos := 0, nOccurrences := 0, pos := 0 }
    with hdata₀
  have hview : NearView ii query data.docid (x :: ls) data.next data₀ S :=
    ⟨x :: ls, ⟨hat.query, hat.tracks, .refl _, rfl, rfl⟩, fun i ti y hti hy => hat.items hti hy⟩
  have hlen : data.tokenInfos.length = (x :: ls).length := hat.tracks.length_eq
  obtain ⟨hok, hperm⟩ := (@EndedTree.ok_empty ℕ ℤ _ data₀.posAt).foldl_push
    (List.range (x :: ls).length)
  have hscan : Scan (List.range (x :: ls).length)
      (NearView ii query data.docid (x :: ls) data.next) data₀
      ((List.range (x :: ls).length).foldl (EndedTree.push data₀.posAt) .empty) S :=
    ⟨hview, hok, hperm.trans (by rw [EndedTree.items]; exact .of_eq (List.append_nil _))⟩
  have hreps : ∀ i ∈ List.range (x :: ls).length,
      ∃ y ∈ (x :: ls)[i]?, y.label.mustLast = false := fun i hi => by
    rw [List.mem_range] at hi
    refine ⟨_, List.getElem?_eq_getElem hi, hlast _ ?_⟩
    rw [← hat.labels]
    exact List.mem_map.2 ⟨_, List.getElem_mem hi, rfl⟩
  have hk : nPlaces (List.range (x :: ls).length) S < fuel := by
    refine lt_of_le_of_lt (nPlaces_le List.nodup_range (List.Subset.refl _) fun i y hy => ?_)
      hfits.sum
    obtain ⟨ti, hti, -⟩ := getElem?_of_forall₂ hat.tracks hy
    have hSi : S i = insert ti.pos {p | y.OccursAt data.docid p} := (hat.items hti hy).1
    rw [hSi]
    exact (Set.ncard_insert_le _ _).trans (Nat.succ_le_succ (ncard_occursAt_le y data.docid))
  obtain ⟨data', hrun, hrests, -, hiff⟩ := nearLoop_near (moving_near hmode hat.low hfits.length)
    List.nodup_range (by simp) hmode hmin hreps hscan hk
  have hcount : NearCount query.maxInterval (spots e data.docid (x :: ls)) data'.nOccurrences := by
    have hspots : (spots e data.docid (x :: ls)).length = (x :: ls).length := by simp [spots]
    rw [NearCount, NearMatch, hspots]
    exact hiff rfl
  obtain ⟨ls', hc⟩ : ∃ ls', Counted ii _ e data data' (x :: ls) ls' :=
    Rests.counted (hat.query ▸ hrests) hcount
  refine ⟨data', ls', ?_, hc⟩
  rw [SelectData.find]
  dsimp only
  rw [if_neg (by rw [hmode']; decide), SelectData.findNear, hmode', hlen]
  exact hrun

end View

/-! ## The answer -/

section Answer

variable {maxInterval : ℤ} {e : ℕ} {zs : List (TokenLabel × List Hit)}

/-- The places of the tokens in a record and section. -/
def placesAt (d : Docid) (zs : List (TokenLabel × List Hit)) (i : ℕ) : Set ℤ :=
  {p | ∃ z ∈ zs[i]?, p ∈ placesIn z.1 z.2 d}

/-- **Near tokens**: there are places of all of them in a window. -/
def nearIn (maxInterval : ℤ) (d : Docid) (zs : List (TokenLabel × List Hit)) : Prop :=
  Window maxInterval (List.range zs.length) (placesAt d zs)

/-- The first place of all of the first token is in the record and section, and in front of it by
`e` there is a position that makes a window. -/
def earlyIn (maxInterval : ℤ) (e : ℕ) (d : Docid) (zs : List (TokenLabel × List Hit)) : Prop :=
  ∃ z ∈ zs.head?, ∃ o, IsFirst z.2 o ∧ o.docid = d ∧
    Window maxInterval (List.range zs.length)
      (Function.update (placesAt d zs) 0 {(o.pos : ℤ) - z.1.offset - e})

theorem spotsIn_succ (i : ℕ) :
    {p | ∃ s ∈ (spotsIn e d zs)[i + 1]?, p ∈ s.places} = placesAt d zs (i + 1) := by
  cases zs with
  | nil => simp [spotsIn, placesAt]
  | cons z zs =>
    ext p
    simp only [spotsIn, placesAt, List.getElem?_cons_succ, List.getElem?_map, Set.mem_ofPred_eq]
    cases zs[i]? <;> simp

/-- What is found is near, or seems to be. -/
theorem nearMatch_spotsIn :
    NearMatch maxInterval (spotsIn e d zs) ↔
      nearIn maxInterval d zs ∨ earlyIn maxInterval e d zs := by
  cases zs with
  | nil => simp [NearMatch, nearIn, earlyIn, spotsIn, Window]
  | cons z zs =>
    have hlen : (spotsIn e d (z :: zs)).length = (z :: zs).length := by simp [spotsIn]
    rw [NearMatch, hlen]
    constructor
    · rintro ⟨c, hc, hor⟩
      have hrest : ∀ i, i + 1 ∈ List.range (z :: zs).length →
          c (i + 1) ∈ placesAt d (z :: zs) (i + 1) := fun i hi => by
        rw [← @spotsIn_succ d e]
        exact hc _ hi
      obtain ⟨s, hs, hzero⟩ := hc 0 (by simp)
      cases hs
      rcases hzero with hzero | ⟨o, hfirst, hd, hzero⟩
      · refine .inl ⟨c, fun i hi => ?_, hor⟩
        cases i with
        | zero => exact ⟨z, rfl, hzero⟩
        | succ i => exact hrest i hi
      · refine .inr ⟨z, rfl, o, hfirst, hd, c, fun i hi => ?_, hor⟩
        cases i with
        | zero =>
          rw [Function.update_self]
          exact hzero
        | succ i =>
          rw [Function.update_of_ne (Nat.succ_ne_zero i)]
          exact hrest i hi
    · rintro (⟨c, hc, hor⟩ | ⟨z', hz', o, hfirst, hd, c, hc, hor⟩)
      · refine ⟨c, fun i hi => ?_, hor⟩
        cases i with
        | zero =>
          obtain ⟨z', hz', hp⟩ := hc 0 hi
          cases hz'
          exact ⟨_, rfl, .inl hp⟩
        | succ i =>
          have := hc _ hi
          rwa [← @spotsIn_succ d e] at this
      · cases hz'
        refine ⟨c, fun i hi => ?_, hor⟩
        have := hc i hi
        cases i with
        | zero =>
          rw [Function.update_self] at this
          exact ⟨_, rfl, .inr ⟨o, hfirst, hd, this⟩⟩
        | succ i =>
          rw [Function.update_of_ne (Nat.succ_ne_zero i)] at this
          rwa [← @spotsIn_succ d e] at this

/-- Where nothing is early nothing seems to be near. -/
theorem nearIn_of_earlyIn_zero (h : earlyIn maxInterval 0 d zs) : nearIn maxInterval d zs := by
  obtain ⟨z, hz, o, ⟨⟨y, hy, hd, hpos⟩, -⟩, rfl, c, hc, hor⟩ := h
  refine ⟨c, fun i hi => ?_, hor⟩
  have := hc i hi
  by_cases hzero : i = 0
  · subst hzero
    rw [Function.update_self] at this
    rw [List.head?_eq_getElem?] at hz
    exact ⟨z, hz, y, hy, hd, o.pos, hpos, by simpa using this⟩
  · rwa [Function.update_of_ne hzero] at this

end Answer

/-! ## Near tokens at hand -/

open CursorHeap (splitTerm splitTerm_holds)
open Cursor (splitTerm_skipSafe)

/-- Two tokens, and the postings of their terms. -/
def splitTokens : List QueryToken := [.plain 0 [.stored splitTerm], .plain 1 [.sole 5 1 8]]

def splitHits : List (List (List Hit)) :=
  [[[⟨⟨3, 1⟩, 1, 0, [4]⟩, ⟨⟨5, 1⟩, 1, 0, [7]⟩, ⟨⟨20, 1⟩, 1, 0, [3]⟩]], [[soleHit 5 1 8]]]

theorem splitTokens_holds : List.Forall₂
    (fun q hss => List.Forall₂ (Term.Holds ⟨true, false, true⟩) q.terms hss)
      splitTokens splitHits := by
  have hsole : (Term.sole 5 1 8).Holds ⟨true, false, true⟩ [soleHit 5 1 8] := rfl
  exact .cons (.cons splitTerm_holds .nil) (.cons (.cons hsole .nil) .nil)

theorem splitTokens_skipSafe : ∀ q ∈ splitTokens, ∀ t ∈ q.terms, t.SkipSafe := by
  intro q hq t ht
  rcases List.mem_cons.1 hq with rfl | hq
  · obtain rfl := List.mem_singleton.1 ht
    exact splitTerm_skipSafe
  · obtain rfl := List.mem_singleton.1 hq
    obtain rfl := List.mem_singleton.1 ht
    trivial

/-- Near search with the default for the smallest interval. -/
def SelectQuery.near (maxInterval : ℤ) : SelectQuery := ⟨.near, 0, maxInterval, -2147483648⟩

end Groonga.Ii
