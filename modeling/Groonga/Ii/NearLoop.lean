import Groonga.Ii.RecordSearch
import Mathlib

/-!
# The loop over windows

Near search keeps an item for each token, or for each phrase, in a tree: one of its places. The
first item of the tree is moved on over and over. An item is seen here as the set `S` of places
from its place on, of which its place is the least. How an item is moved on differs, but the loop
needs of it only what `Moving` says: the places in front of the aim are left out of `S`, and when
none is left the loop ends.
-/

namespace Groonga.Ii

open Line Lib

variable {ii : Layout} {query : SelectQuery} {d : Docid}
  {ls₀ : List Line} {next₀ : Docid}

namespace SelectData

/-- How far the window reaches. -/
def interval (data : SelectData) (a b : ℕ) : ℤ :=
  if data.mode.ofPhrases then data.posAt b - data.posAt a - data.nTokensAt a
  else data.posAt b - data.posAt a

/-- Where the first item is moved to. -/
def aim (data : SelectData) (matched : Bool) (a b : ℕ) : ℤ :=
  if data.mode.ofPhrases then if matched then data.posAt b + 1 else data.posAt a + 1
  else if matched then data.posAt b + 1
    else if data.posAt b - data.maxInterval ≤ data.posAt a then data.posAt a + 1
      else data.posAt b - data.maxInterval

/-- An item is moved on. -/
def move (ii : Layout) (fuel : ℕ) (data : SelectData) (a : ℕ) (pos : ℤ) :
    Option (SelectData × Bool) :=
  if data.mode.ofPhrases then data.findPhrase ii fuel (data.phraseIdAt a) pos
  else data.skipPos ii fuel pos

theorem posAt_lt_aim {data : SelectData} {matched : Bool} {a b : ℕ}
    (h : data.posAt a ≤ data.posAt b) : data.posAt a < data.aim matched a b := by
  unfold aim
  split_ifs <;> omega

end SelectData

/-- How `find` leaves the tokens. -/
structure Rests (ii : Layout) (query : SelectQuery) (d : Docid) (ls₀ : List Line) (next₀ : Docid)
    (data : SelectData) : Prop where
  query : data.toSelectQuery = query
  tracks : ∃ ls, List.Forall₂ (Tracks ii True) data.tokenInfos ls ∧
    Advanced (fun d' _ => d < d') ls₀ ls
  docid : data.docid = d
  next : data.next = next₀ ∨ (d < data.next ∧ ∀ d', d < d' → d' < data.next → ¬ Meets ls₀ d')

theorem Rests.counted {C : List Spot → ℕ → Prop} {e : ℕ} {data data' : SelectData}
    (h : Rests ii data.toSelectQuery data.docid ls₀ data.next data')
    (hc : C (spots e data.docid ls₀) data'.nOccurrences) :
    ∃ ls', Counted ii C e data data' ls₀ ls' := by
  obtain ⟨ls', htracks, hadv⟩ := h.tracks
  exact ⟨ls', h.query, htracks, h.docid, hadv, hc, h.next⟩

section Tokens

variable {data : SelectData} {ls : List Line} {x x₀ : Line} {ti : TokenInfo} {i j fuel : ℕ}

/-- Two lists in step. -/
theorem getElem?_of_forall₂ {α β : Type*} {R : α → β → Prop} {as : List α} {bs : List β}
    (h : List.Forall₂ R as bs) {b : β} (hb : bs[i]? = some b) : ∃ a, as[i]? = some a ∧ R a b := by
  induction h generalizing i with
  | nil => cases hb
  | cons h0 _ ih =>
    cases i with
    | zero =>
      cases hb
      exact ⟨_, rfl, h0⟩
    | succ i => exact ih hb

/-- A token keeps its label. -/
theorem Rests.token (h : Rests ii query d ls₀ next₀ data) (hi : ls₀[i]? = some x₀) :
    ∃ ti, data.tokenInfos[i]? = some ti ∧ ti.toTokenLabel = x₀.label := by
  obtain ⟨ls, htracks, hadv⟩ := h.tracks
  obtain ⟨hlt, rfl⟩ := List.getElem?_eq_some_iff.1 hi
  obtain ⟨x, hx⟩ : ∃ x, ls[i]? = some x :=
    ⟨_, List.getElem?_eq_getElem (hadv.length_eq ▸ hlt)⟩
  obtain ⟨ti, hti, htrack⟩ := getElem?_of_forall₂ htracks hx
  obtain ⟨x₁, hx₁, hs⟩ := getElem?_of_forall₂ hadv hx
  obtain rfl : ls₀[i] = x₁ := Option.some.inj (hi.symm.trans hx₁)
  exact ⟨ti, hti, htrack.label.trans hs.label⟩

theorem labels_of_tracks {tis : List TokenInfo} (h : List.Forall₂ (Tracks ii True) tis ls) :
    tis.map (·.toTokenLabel) = ls.map Line.label := by
  induction h with
  | nil => rfl
  | cons hx _ ih => rw [List.map_cons, List.map_cons, hx.label, ih]

/-- No token is to be the last. -/
theorem Rests.mustLastAt_eq_false {labels : List TokenLabel}
    (h : Rests ii query d ls₀ next₀ data) (hlabels : ls₀.map Line.label = labels)
    (hlast : ∀ l ∈ labels, l.mustLast = false) (i : ℕ) : data.mustLastAt i = false := by
  obtain ⟨ls, htracks, hadv⟩ := h.tracks
  rw [SelectData.mustLastAt]
  cases hti : data.tokenInfos[i]? with
  | none => rfl
  | some ti =>
    refine hlast ti.toTokenLabel ?_
    rw [← hlabels, ← hadv.labels, ← labels_of_tracks htracks]
    exact List.mem_map.2 ⟨ti, List.mem_of_getElem? hti, rfl⟩

/-- The tokens while windows are looked for in a record and section. -/
structure InRecord (ii : Layout) (query : SelectQuery) (d : Docid) (ls₀ : List Line)
    (next₀ : Docid) (data : SelectData) (ls : List Line) : Prop where
  query : data.toSelectQuery = query
  tracks : List.Forall₂ (Tracks ii True) data.tokenInfos ls
  advanced : Advanced (fun d' _ => d < d') ls₀ ls
  docid : data.docid = d
  next : data.next = next₀

theorem InRecord.rests (h : InRecord ii query d ls₀ next₀ data ls) :
    Rests ii query d ls₀ next₀ data :=
  ⟨h.query, ⟨ls, h.tracks, h.advanced⟩, h.docid, .inl h.next⟩

theorem posAt_of_getElem? (hi : data.tokenInfos[i]? = some ti) : data.posAt i = ti.pos := by
  rw [SelectData.posAt, hi]
  rfl

theorem posAt_set (hi : i < data.tokenInfos.length) :
    ({ data with tokenInfos := data.tokenInfos.set i ti } : SelectData).posAt j =
      if j = i then ti.pos else data.posAt j := by
  unfold SelectData.posAt
  split_ifs with h
  · subst h
    rw [List.getElem?_set_self hi]
    rfl
  · rw [List.getElem?_set_ne (Ne.symm h)]

/-- **`skip_pos`** leaves out places in front of the aim, or ends when none is left. -/
theorem InRecord.skipPos (h : InRecord ii query d ls₀ next₀ data ls) (hfrom : From d ls₀)
    (hlength : ∀ x ∈ ls₀, x.occs.length < fuel) (hi : ls[data.currentTokenInfo]? = some x)
    (pos : ℤ) :
    ∃ data' ok, data.skipPos ii fuel pos = some (data', ok) ∧
      data'.nOccurrences = data.nOccurrences ∧
      ((ok = false ∧ (∀ p, x.OccursAt d p → p < pos) ∧ Rests ii query d ls₀ next₀ data') ∨
        ∃ ti x', ok = true ∧
          data' = { data with tokenInfos := data.tokenInfos.set data.currentTokenInfo ti } ∧
          InRecord ii query d ls₀ next₀ data' (ls.set data.currentTokenInfo x') ∧
          Shortened (fun d' p => d' = d → pos ≤ p) x x' ∧ Tracks ii True ti x' ∧ pos ≤ ti.pos ∧
          x'.IsAt d ti.pos) := by
  obtain ⟨ti, hti, htrack⟩ := getElem?_of_forall₂ h.tracks hi
  have hmem : x ∈ ls := List.mem_of_getElem? hi
  obtain ⟨x₀, hx₀, hs₀⟩ := h.advanced.exists_left hmem
  obtain ⟨ti', ok, x', hrun, htrack', hshort, hland⟩ :=
    htrack.landed (hs₀.suffix.length_le.trans_lt (hlength x₀ hx₀))
      (h.advanced.from_ hfrom x hmem) pos
  have htracks' := @tracks_set _ _ _ _ _ _ data.currentTokenInfo h.tracks htrack'
  have hadv : Advanced (fun d' _ => d < d') ls₀ (ls.set data.currentTokenInfo x') :=
    h.advanced.trans (.set hi (hshort.mono fun _ _ hd heq => absurd heq hd.ne'))
  rw [SelectData.skipPos, hti]
  simp only [h.docid, hrun, Option.bind_eq_bind, Option.bind_some]
  cases hland with
  | ended hok hnil =>
    subst hok
    refine ⟨_, false, rfl, rfl, .inl ⟨rfl, fun p hp => ?_, h.query, ⟨_, htracks', hadv⟩, rfl,
      .inl h.next⟩⟩
    by_contra hle
    obtain ⟨o, ho, -⟩ := hshort.kept d p (fun _ => not_lt.1 hle) hp
    rw [hnil] at ho
    cases ho
  | behind hok hlt hnone =>
    subst hok
    simp only [Bool.not_true, Bool.false_eq_true, if_false]
    rw [if_pos hlt.ne']
    refine ⟨_, false, rfl, rfl, .inl ⟨rfl, fun p hp => ?_, h.query, ⟨_, htracks', hadv⟩, rfl,
      .inr ⟨hlt, fun d' hd hd' hm => ?_⟩⟩⟩
    · by_contra hle
      exact hnone d p hlt (hshort.kept d p (fun _ => not_lt.1 hle) hp)
    · obtain ⟨p, hp⟩ := hm x₀ hx₀
      exact hnone d' p hd' (hshort.kept d' p (fun heq => absurd heq hd.ne')
        (hs₀.kept d' p hd hp))
  | inside hok hd hle hat =>
    subst hok
    simp only [Bool.not_true, Bool.false_eq_true, if_false]
    rw [if_neg (by rw [hd]; exact not_not.2 rfl)]
    refine ⟨_, true, rfl, rfl, .inr ⟨ti', x', rfl, ?_, ⟨h.query, htracks', hadv, rfl, h.next⟩,
      hshort, htrack', hle, hat⟩⟩
    rw [← h.docid]

end Tokens

/-- **How items are moved on.** `V data S` says that the items of the tokens have the places
`S`. -/
structure Moving (ii : Layout) (query : SelectQuery) (d : Docid) (ls₀ : List Line) (next₀ : Docid)
    (fuel : ℕ) (reps : List ℕ) (V : SelectData → (ℕ → Set ℤ) → Prop) : Prop where
  query_eq : ∀ {data S}, V data S → data.toSelectQuery = query
  frame : ∀ {data S} (i n : ℕ), V data S →
    V { data with currentTokenInfo := i, nOccurrences := n } S
  rests : ∀ {data S}, V data S → Rests ii query d ls₀ next₀ data
  least : ∀ {data S}, V data S → ∀ i ∈ reps, IsLeast (S i) (data.posAt i)
  finite : ∀ {data S}, V data S → ∀ i ∈ reps, (S i).Finite
  move : ∀ {data S} (i : ℕ) (pos : ℤ), V data S → data.currentTokenInfo = i → i ∈ reps →
    data.posAt i < pos → ∃ data' ok, data.move ii fuel i pos = some (data', ok) ∧
      data'.nOccurrences = data.nOccurrences ∧
      ((ok = false ∧ (∀ p ∈ S i, p < pos) ∧ Rests ii query d ls₀ next₀ data') ∨
        (ok = true ∧ V data' (Function.update S i (S i ∩ Set.Ici pos)) ∧
          ∀ j ∈ reps, j ≠ i → data'.posAt j = data.posAt j))

/-- How many places are left. -/
noncomputable def nPlaces (reps : List ℕ) (S : ℕ → Set ℤ) : ℕ :=
  (reps.map fun i => (S i).ncard).sum

theorem nPlaces_lt {reps : List ℕ} {S : ℕ → Set ℤ} {a : ℕ} {p pos : ℤ} (ha : a ∈ reps)
    (hfin : (S a).Finite) (hp : p ∈ S a) (hlt : p < pos) :
    nPlaces reps (Function.update S a (S a ∩ Set.Ici pos)) < nPlaces reps S := by
  refine List.sum_lt_sum _ _ (fun i _ => ?_) ⟨a, ha, ?_⟩
  · by_cases hia : i = a
    · subst hia
      rw [Function.update_self]
      exact Set.ncard_le_ncard Set.inter_subset_left hfin
    · rw [Function.update_of_ne hia]
  · rw [Function.update_self]
    refine Set.ncard_lt_ncard ⟨Set.inter_subset_left, fun hsub => ?_⟩ hfin
    exact not_lt.2 (hsub hp).2 hlt

theorem occursAt_finite (x : Line) (d : Docid) : {p | x.OccursAt d p}.Finite := by
  refine ((List.finite_toSet x.occs).image x.rel).subset ?_
  rintro p ⟨o, ho, -, hp⟩
  exact ⟨o, ho, hp⟩

theorem ncard_occursAt_le (x : Line) (d : Docid) :
    {p | x.OccursAt d p}.ncard ≤ x.occs.length := by
  have hsub : {p | x.OccursAt d p} ⊆ ((x.occs.map x.rel).toFinset : Set ℤ) := by
    rintro p ⟨o, ho, -, rfl⟩
    simpa using ⟨o, ho, rfl⟩
  calc {p | x.OccursAt d p}.ncard
      ≤ ((x.occs.map x.rel).toFinset : Set ℤ).ncard :=
        Set.ncard_le_ncard hsub (Finset.finite_toSet _)
    _ = (x.occs.map x.rel).toFinset.card := Set.ncard_coe_finset _
    _ ≤ (x.occs.map x.rel).length := List.toFinset_card_le _
    _ = x.occs.length := List.length_map _

/-- The places of the items are not more than those of the lines, and one each. -/
theorem nPlaces_le {reps : List ℕ} {S : ℕ → Set ℤ} (hnodup : reps.Nodup)
    (hsub : reps ⊆ List.range ls₀.length)
    (h : ∀ i x, ls₀[i]? = some x → (S i).ncard ≤ x.occs.length + 1) :
    nPlaces reps S ≤ (ls₀.map fun x => x.occs.length).sum + ls₀.length := by
  have hle : List.Forall₂ (· ≤ ·) ((List.range ls₀.length).map fun i => (S i).ncard)
      (ls₀.map fun x => x.occs.length + 1) := by
    refine List.forall₂_iff_get.2 ⟨by simp, fun i h₁ h₂ => ?_⟩
    rw [List.length_map] at h₂
    simpa using h i ls₀[i] (List.getElem?_eq_getElem h₂)
  obtain ⟨l, hperm, hl⟩ := List.subperm_of_subset hnodup hsub
  calc nPlaces reps S
      = (l.map fun i => (S i).ncard).sum := ((hperm.map _).sum_eq).symm
    _ ≤ ((List.range ls₀.length).map fun i => (S i).ncard).sum := (hl.map _).sum_le_sum (by simp)
    _ ≤ (ls₀.map fun x => x.occs.length + 1).sum := hle.sum_le_sum
    _ = (ls₀.map fun x => x.occs.length).sum + ls₀.length := by
      rw [List.sum_map_add]
      simp

/-- The state of the loop: the tree holds the items in order. -/
structure Scan (reps : List ℕ) (V : SelectData → (ℕ → Set ℤ) → Prop) (data : SelectData)
    (bt : EndedTree ℕ) (S : ℕ → Set ℤ) : Prop where
  view : V data S
  ok : EndedTree.Ok data.posAt bt
  perm : bt.items.Perm reps

section Turn

variable {fuel k : ℕ} {reps : List ℕ} {V : SelectData → (ℕ → Set ℤ) → Prop} {data : SelectData}
  {bt : EndedTree ℕ} {S : ℕ → Set ℤ}

/-- The ends of the tree. -/
theorem Scan.ends (h : Scan reps V data bt S) (hne : reps ≠ []) :
    ∃ a b l, a ∈ reps ∧ b ∈ reps ∧ bt.items = a :: l ∧ bt.min = some a ∧ bt.max = some b ∧
      ∀ i ∈ reps, data.posAt a ≤ data.posAt i ∧ data.posAt i ≤ data.posAt b := by
  obtain ⟨a, l, hitems⟩ : ∃ a l, bt.items = a :: l := by
    refine List.exists_cons_of_ne_nil fun hnil => hne ?_
    have := h.perm
    rw [hnil] at this
    exact this.symm.eq_nil
  obtain ⟨l', b, hlast⟩ : ∃ l' b, bt.items = l' ++ [b] := by
    rw [hitems]
    exact ⟨_, _, (List.dropLast_append_getLast (List.cons_ne_nil a l)).symm⟩
  have hsorted := h.ok.sorted
  refine ⟨a, b, l, h.perm.subset (by simp [hitems]), h.perm.subset (by simp [hlast]), hitems,
    by rw [h.ok.min, hitems]; rfl, by rw [h.ok.max, hlast, List.getLast?_concat], fun i hi => ?_⟩
  have hmem := h.perm.mem_iff.2 hi
  constructor
  · rw [hitems] at hsorted hmem
    rcases List.mem_cons.1 hmem with rfl | hmem
    · exact le_rfl
    · exact (List.pairwise_cons.1 hsorted).1 i hmem
  · rw [hlast] at hsorted hmem
    rcases List.mem_append.1 hmem with hmem | hmem
    · exact (List.pairwise_append.1 hsorted).2.2 i hmem b List.mem_cons_self
    · rw [List.mem_singleton.1 hmem]

/-- What a turn of the loop does when the window is counted or not. -/
theorem Scan.turn (hm : Moving ii query d ls₀ next₀ fuel reps V)
    (h : Scan reps V data bt S) (hnodup : reps.Nodup) (hne : reps ≠ []) (k : ℕ) :
    ∃ a b, a ∈ reps ∧ b ∈ reps ∧
      (∀ i ∈ reps, data.posAt a ≤ data.posAt i ∧ data.posAt i ≤ data.posAt b) ∧
      ∃ data' pos, pos = data.aim (data.matched bt b (data.interval a b)) a b ∧
        data'.nOccurrences = (if data.matched bt b (data.interval a b) then
          data.nOccurrences + 1 else data.nOccurrences) ∧
        ((SelectData.nearLoop ii fuel (k + 1) bt data = some (some data') ∧
            (∀ p ∈ S a, p < pos) ∧ Rests ii query d ls₀ next₀ data') ∨
          (Scan reps V data' (bt.reorderMin data'.posAt)
              (Function.update S a (S a ∩ Set.Ici pos)) ∧
            (∀ j ∈ reps, j ≠ a → data'.posAt j = data.posAt j) ∧
            ∃ c ∈ reps, (∀ i ∈ reps, data'.posAt c ≤ data'.posAt i) ∧
              SelectData.nearLoop ii fuel (k + 1) bt data =
                if data'.mode.ofPhrases ∧ data'.posAt c = data.posAt a ∧
                    data'.nTokensAt c = data.nTokensAt a then some (some data')
                else SelectData.nearLoop ii fuel k (bt.reorderMin data'.posAt) data')) := by
  obtain ⟨a, b, l, ha, hb, hitems, hmin, hmax, hends⟩ := h.ends hne
  refine ⟨a, b, ha, hb, hends, ?_⟩
  set m := data.matched bt b (data.interval a b) with hmdef
  set n := if m then data.nOccurrences + 1 else data.nOccurrences with hn
  set data₁ : SelectData := { data with currentTokenInfo := a, nOccurrences := n } with hdata₁
  have hpos : data₁.posAt = data.posAt := rfl
  obtain ⟨data', ok, hrun, hocc, hor⟩ := hm.move a (data.aim m a b) (hm.frame a n h.view) rfl ha
    (SelectData.posAt_lt_aim (hends b hb).1)
  refine ⟨data', _, rfl, hocc, ?_⟩
  -- the loop moves on `data₁`
  have hloop : SelectData.nearLoop ii fuel (k + 1) bt data =
      (data₁.move ii fuel a (data.aim m a b)).bind fun r =>
        if !r.2 then some (some r.1)
        else
          let bt := bt.reorderMin r.1.posAt
          let c := bt.min.getD a
          if r.1.mode.ofPhrases ∧ r.1.posAt c = data.posAt a ∧
              r.1.nTokensAt c = data.nTokensAt a then some (some r.1)
          else SelectData.nearLoop ii fuel k bt r.1 := by
    have hle : ¬ data.posAt b < data.posAt a := not_lt.2 (hends b hb).1
    have hite : (if m then { data with currentTokenInfo := a, nOccurrences := data.nOccurrences + 1 }
        else { data with currentTokenInfo := a } : SelectData) = data₁ := by
      rw [hdata₁, hn]
      cases m <;> rfl
    rw [SelectData.nearLoop, hmin, hmax]
    dsimp only
    have hpos' : ({ data with currentTokenInfo := a } : SelectData).posAt = data.posAt := rfl
    rw [hpos', if_neg hle]
    have hmat : ({ data with currentTokenInfo := a } : SelectData).matched bt b
        (if data.mode.ofPhrases then data.posAt b - data.posAt a -
          ({ data with currentTokenInfo := a } : SelectData).nTokensAt a
          else data.posAt b - data.posAt a) = m := rfl
    have hph : data₁.mode.ofPhrases = data.mode.ofPhrases := rfl
    rw [hmat, hite, SelectData.move, SelectData.aim, hph]
    cases data.mode.ofPhrases <;> rfl
  rw [hloop, hrun]
  simp only [Option.bind_some]
  rcases hor with ⟨rfl, hlow, hrests⟩ | ⟨rfl, hview, hframe⟩
  · exact .inl ⟨rfl, hlow, hrests⟩
  · have hnotin : a ∉ l := by
      have hnd := h.perm.nodup_iff.2 hnodup
      rw [hitems] at hnd
      exact (List.nodup_cons.1 hnd).1
    have hkey : ∀ i ∈ l, data'.posAt i = data.posAt i := fun i hi => by
      refine hframe i (h.perm.subset ?_) fun hia => hnotin (hia ▸ hi)
      rw [hitems]
      exact List.mem_cons_of_mem _ hi
    obtain ⟨hok', hperm'⟩ := h.ok.reorderMin hitems hkey
    have hscan : Scan reps V data' (bt.reorderMin data'.posAt)
        (Function.update S a (S a ∩ Set.Ici (data.aim m a b))) :=
      ⟨hview, hok', hperm'.trans (hitems ▸ h.perm)⟩
    obtain ⟨c, _, _, hc, -, -, hmin', -, hends'⟩ := hscan.ends hne
    refine .inr ⟨hscan, hframe, c, hc, fun i hi => (hends' i hi).1, ?_⟩
    simp only [Bool.not_true, Bool.false_eq_true, if_false, hmin', Option.getD_some]

end Turn

end Groonga.Ii
