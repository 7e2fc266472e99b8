import Groonga.Ii.PhraseWindows
import Groonga.Ii.NearSearch
import Mathlib

/-!
# Near phrases

What is found when the first places of the phrases are looked at, for one position after the other,
until two phrases with the same number of tokens begin at one place.

For near phrases a window is found if one that is behind no such place is made of first places. In
order, phrases of one token each are found just then: a later place of a phrase in the middle is
looked at only when the phrase is the one that is furthest behind.
-/

namespace Groonga.Ii

open Line Lib

variable {ii : Layout} {query : SelectQuery} {labels : List TokenLabel} {nTokens : ℕ → ℕ}

/-! ## What is selected -/

/-- Where a phrase begins in a record and section, by the postings of its tokens. -/
def startsIn (d : Docid) (zs : List (TokenLabel × List Hit)) (f : ℕ) : Set ℤ :=
  {p | 0 ≤ p ∧ ∀ z ∈ zs, z.1.phraseId = f → p ∈ placesIn z.1 z.2 d}

theorem startsOf_spotsIn (d : Docid) (zs : List (TokenLabel × List Hit)) :
    startsOf (zs.map Prod.fst) (spotsIn 0 d zs) = startsIn d zs := by
  funext f
  ext p
  refine and_congr_right fun _ => ?_
  rw [spotsIn_zero]
  constructor
  · intro h z hz hf
    obtain ⟨j, hj, rfl⟩ := List.mem_iff_getElem.1 hz
    refine h j (mem_phraseTokens.2 ⟨by rw [List.length_map]; exact hj, ?_⟩)
      ⟨zs[j].1, placesIn zs[j].1 zs[j].2 d⟩ ?_
    · rw [phraseOf, List.getElem?_map, List.getElem?_eq_getElem hj]
      exact hf
    · rw [List.getElem?_map, List.getElem?_eq_getElem hj]
      rfl
  · intro h j hj s hs
    rw [List.getElem?_map] at hs
    obtain ⟨z, hz, rfl⟩ := Option.map_eq_some_iff.1 hs
    refine h z (List.mem_of_getElem? hz) ?_
    have := (mem_phraseTokens.1 hj).2
    rwa [phraseOf, List.getElem?_map, hz] at this

/-- **What phrase search selects**: every window that is reached is selected, and what is selected
has a window. If all phrases have the same number of tokens nothing else is selected. -/
theorem select_phrases {W : (ℕ → ℤ) → ℕ → Prop} {qs : List QueryToken}
    {hsss : List (List (List Hit))}
    (hd : Decides ii query (qs.map (QueryToken.labelIn false)) nTokens W)
    (hterms : List.Forall₂ (fun q hss => List.Forall₂ (Term.Holds ii) q.terms hss) qs hsss)
    (hsafe : ∀ q ∈ qs, ∀ t ∈ q.terms, t.SkipSafe) :
    ∃ N, ∀ fuel, N < fuel → ∃ ps, SelectCursor.select ii fuel query false qs = some ps ∧
      ∀ d, ((∃ p ∈ ps, p.docid = d) →
          Chosen (List.range query.nPhrases) (startsIn d (tokensIn false qs hsss)) W) ∧
        (Reached (List.range query.nPhrases) (startsIn d (tokensIn false qs hsss)) nTokens W →
          ∃ p ∈ ps, p.docid = d) ∧
        ((∀ f < query.nPhrases, ∀ g < query.nPhrases, nTokens f = nTokens g) →
          (∀ c, ∀ a < query.nPhrases, ∀ b < query.nPhrases, c a = c b → W c a → W c b) →
          (∃ p ∈ ps, p.docid = d) →
            Reached (List.range query.nPhrases) (startsIn d (tokensIn false qs hsss)) nTokens
              W) := by
  have hne : qs ≠ [] := by
    rintro rfl
    obtain ⟨j, hj⟩ := hd.phrases.nonempty 0 hd.pos
    exact absurd (mem_phraseTokens.1 hj).1 (Nat.not_lt_zero j)
  have hlabels : (tokensIn false qs hsss).map Prod.fst = qs.map (QueryToken.labelIn false) := by
    rw [tokensIn, List.map_fst_zip]
    rw [List.length_map, List.length_map, hterms.length_eq]
  obtain ⟨N, hN⟩ := select_spec hne hterms hsafe (finds_phrases hd)
  refine ⟨N, fun fuel hfuel => ?_⟩
  obtain ⟨ps, hrun, hanswers⟩ := hN fuel hfuel
  have hearly : earlyOf false qs = 0 := rfl
  rw [hearly] at hanswers
  refine ⟨ps, hrun, fun d => ?_⟩
  rw [← startsOf_spotsIn, hlabels]
  refine ⟨?_, fun hr => ?_, fun hT hsame => ?_⟩
  · rintro ⟨p, hp, rfl⟩
    obtain ⟨-, htf, hcount⟩ := hanswers.found p hp
    exact hcount.sound htf
  · by_contra hno
    -- a phrase that begins somewhere has all its tokens there
    have hmeets : meetsIn d (tokensIn false qs hsss) := by
      obtain ⟨m, c, hc, -⟩ := hr
      intro z hz
      have hl : z.1 ∈ qs.map (QueryToken.labelIn false) :=
        hlabels ▸ List.mem_map.2 ⟨z, hz, rfl⟩
      have hmem := (hc _ (List.mem_range.2 (hd.phrases.lt _ hl))).1.1
      rw [← hlabels, startsOf_spotsIn] at hmem
      exact ⟨_, hmem.2 z hz rfl⟩
    exact (hanswers.missed d hmeets fun p hp heq => hno ⟨p, hp, heq⟩).found hr rfl
  · rintro ⟨p, hp, rfl⟩
    obtain ⟨-, htf, hcount⟩ := hanswers.found p hp
    exact hcount.only hT hsame htf

/-! ## Near phrases -/

/-- The places are near, seen from the phrase that is the first. -/
def NearBy (maxInterval : ℤ) (nPhrases : ℕ) (nTokens : ℕ → ℕ) (c : ℕ → ℤ) (a : ℕ) : Prop :=
  ∀ f < nPhrases, c f - c a - nTokens a ≤ maxInterval

/-- What the loop compares, as the places of the phrases. -/
theorem nearBy_onItems {reps : List ℕ} {a b : ℕ} {maxInterval : ℤ} {p : ℕ → ℤ}
    (hreps : reps.map (phraseOf labels) = List.range query.nPhrases) (ha : a ∈ reps)
    (hb : b ∈ reps) (hends : ∀ i ∈ reps, p i ≤ p b) :
    onItems reps (phraseOf labels) (NearBy maxInterval query.nPhrases nTokens) p a ↔
      p b - p a - nTokens (phraseOf labels a) ≤ maxInterval := by
  change (∀ f < query.nPhrases, p (named reps f) - p (named reps (phraseOf labels a)) -
    nTokens (phraseOf labels a) ≤ maxInterval) ↔ _
  rw [(named_name hreps ha).2]
  constructor
  · intro h
    obtain ⟨hlt, hname⟩ := named_name hreps hb
    have := h (phraseOf labels b) hlt
    rwa [hname] at this
  · intro h f hf
    have := hends _ (name_named hreps hf).1
    omega

/-- The interval of the loop is that of the places. -/
theorem Scan.interval_eq {d : Docid} {ls₀ : List Line} {next₀ : Docid} {reps : List ℕ}
    {data : SelectData} {bt : EndedTree ℕ} {S : ℕ → Set ℤ} {a b : ℕ}
    (h : Scan reps (PhraseView ii query labels d ls₀ next₀ reps) data bt S)
    (hmode : query.mode.ofPhrases = true) (hlabels : ls₀.map Line.label = labels)
    (hcount : ∀ l ∈ labels, l.nTokensInPhrase = nTokens l.phraseId)
    (ha : a ∈ phraseTokens labels (phraseOf labels a)) :
    data.toSelectQuery = query ∧
      data.interval a b = data.posAt b - data.posAt a - nTokens (phraseOf labels a) := by
  obtain ⟨ls, hrec, -⟩ := h.view.view
  have hquery := hrec.query
  have hmode' : data.mode.ofPhrases = true := by rw [hquery, hmode]
  refine ⟨hquery, ?_⟩
  rw [SelectData.interval, if_pos hmode', hrec.rests.nTokensAt hlabels hcount ha]

/-- The smallest interval is no limit. -/
theorem Scan.minInterval_le {d : Docid} {ls₀ : List Line} {next₀ : Docid} {reps : List ℕ}
    {data : SelectData} {bt : EndedTree ℕ} {S : ℕ → Set ℤ} {a b : ℕ}
    (h : Scan reps (PhraseView ii query labels d ls₀ next₀ reps) data bt S)
    (hmode : query.mode.ofPhrases = true) (hlabels : ls₀.map Line.label = labels)
    (hcount : ∀ l ∈ labels, l.nTokensInPhrase = nTokens l.phraseId)
    (hmin : ∀ l ∈ labels, query.minInterval ≤ -l.nTokensInPhrase)
    (ha : a ∈ phraseTokens labels (phraseOf labels a)) (hle : data.posAt a ≤ data.posAt b) :
    data.minInterval ≤ data.interval a b := by
  obtain ⟨hquery, hinterval⟩ := h.interval_eq (b := b) hmode hlabels hcount ha
  have hlt := (mem_phraseTokens.1 ha).1
  have hph : (labels[a]).phraseId = phraseOf labels a := by
    rw [phraseOf, List.getElem?_eq_getElem hlt]
    rfl
  have := hmin _ (List.getElem_mem hlt)
  rw [hcount _ (List.getElem_mem hlt), hph] at this
  rw [hinterval, hquery]
  omega

theorem decides_nearPhrase (hmode : query.mode = .nearPhrase)
    (hphrases : IsPhrases labels query.nPhrases) (hpos : 0 < query.nPhrases)
    (hcount : ∀ l ∈ labels, l.nTokensInPhrase = nTokens l.phraseId)
    (hlast : ∀ l ∈ labels, l.mustLast = false) (hmax : 0 ≤ query.maxInterval)
    (hmin : ∀ l ∈ labels, query.minInterval ≤ -l.nTokensInPhrase) :
    Decides ii query labels nTokens (NearBy query.maxInterval query.nPhrases nTokens) where
  ofPhrases := by rw [hmode]; rfl
  phrases := hphrases
  pos := hpos
  nTokens := hcount
  congr {c c' a} ha hcc h f hf := by
    rw [← hcc f hf, ← hcc a ha]
    exact h f hf
  matched {d ls₀ next₀ reps data bt S} hlabels hreps hmem h a ha b hb hends := by
    have hphr : query.mode.ofPhrases = true := by rw [hmode]; rfl
    obtain ⟨hquery, hinterval⟩ := h.interval_eq (b := b) hphr hlabels hcount (hmem a ha)
    have hmin' := h.minInterval_le hphr hlabels hcount hmin (hmem a ha) (hends b hb).1
    obtain ⟨ls, hrec, -⟩ := h.view.view
    have hzero : bt.items.countP data.mustLastAt = 0 := by
      refine List.countP_eq_zero.2 fun i _ => ?_
      rw [hrec.rests.mustLastAt_eq_false hlabels hlast]
      exact Bool.false_ne_true
    have hmode' : data.mode = .nearPhrase := by rw [hquery, hmode]
    have hmax' : data.maxInterval = query.maxInterval := by rw [hquery]
    rw [nearBy_onItems hreps ha hb fun i hi => (hends i hi).2, ← hinterval,
      SelectData.matched, hzero, hmode']
    simp [hmin', hmax', not_lt.2 hmax]

/-! ## Phrases in order -/

/-- The places are in the order of the query, and near if that matters. -/
def InOrderBy (maxInterval : ℤ) (nPhrases : ℕ) (nTokens : ℕ → ℕ) (c : ℕ → ℤ) (a : ℕ) : Prop :=
  (∀ g < nPhrases, ∀ f ≤ g, c f ≤ c g) ∧ (maxInterval < 0 ∨ NearBy maxInterval nPhrases nTokens c a)

theorem inOrder_iff (ps : List ℤ) : SelectData.inOrder ps = true ↔ ps.Pairwise (· ≤ ·) := by
  rw [← List.isChain_iff_pairwise]
  fun_induction SelectData.inOrder ps with
  | case1 p q ps hlt => simp [List.isChain_cons_cons, hlt]
  | case2 p q ps hlt ih => rw [ih, List.isChain_cons_cons, and_iff_right (not_lt.1 hlt)]
  | case3 ps h =>
    match ps, h with
    | [], _ => simp
    | [p], _ => simp
    | p :: q :: ps, h => exact absurd rfl (h p q ps)

theorem inOrder_tokens (data : SelectData) :
    SelectData.inOrder (data.tokenInfos.map TokenInfo.pos) = true ↔
      ∀ g < data.tokenInfos.length, ∀ f ≤ g, data.posAt f ≤ data.posAt g := by
  have hget : ∀ i (hi : i < data.tokenInfos.length), data.posAt i = data.tokenInfos[i].pos :=
    fun i hi => posAt_of_getElem? (List.getElem?_eq_getElem hi)
  rw [inOrder_iff, List.pairwise_iff_getElem]
  simp only [List.length_map, List.getElem_map]
  constructor
  · intro h g hg f hf
    rw [hget g hg, hget f (hf.trans_lt hg)]
    rcases hf.eq_or_lt with rfl | hlt
    · exact le_rfl
    · exact h f g (hlt.trans hg) hg hlt
  · intro h f g hf hg hlt
    rw [← hget g hg, ← hget f hf]
    exact h g hg f hlt.le

theorem decides_orderedNearPhrase (hmode : query.mode = .orderedNearPhrase)
    (hphrases : IsPhrases labels query.nPhrases) (hpos : 0 < query.nPhrases)
    (hsingle : ∀ (i : ℕ) (l : TokenLabel), labels[i]? = some l → l.phraseId = i) (hlen : labels.length = query.nPhrases)
    (hcount : ∀ l ∈ labels, l.nTokensInPhrase = nTokens l.phraseId)
    (hmin : ∀ l ∈ labels, query.minInterval ≤ -l.nTokensInPhrase) :
    Decides ii query labels nTokens (InOrderBy query.maxInterval query.nPhrases nTokens) where
  ofPhrases := by rw [hmode]; rfl
  phrases := hphrases
  pos := hpos
  nTokens := hcount
  congr {c c' a} ha hcc h := by
    refine ⟨fun g hg f hf => ?_, h.2.imp_right fun h f hf => ?_⟩
    · rw [← hcc f (hf.trans_lt hg), ← hcc g hg]
      exact h.1 g hg f hf
    · rw [← hcc f hf, ← hcc a ha]
      exact h f hf
  matched {d ls₀ next₀ reps data bt S} hlabels hreps hmem h a ha b hb hends := by
    have hphr : query.mode.ofPhrases = true := by rw [hmode]; rfl
    obtain ⟨hquery, hinterval⟩ := h.interval_eq (b := b) hphr hlabels hcount (hmem a ha)
    have hmin' := h.minInterval_le hphr hlabels hcount hmin (hmem a ha) (hends b hb).1
    have hmode' : data.mode = .orderedNearPhrase := by rw [hquery, hmode]
    have hmax' : data.maxInterval = query.maxInterval := by rw [hquery]
    obtain ⟨ls, hrec, -⟩ := h.view.view
    have hlen' : data.tokenInfos.length = query.nPhrases := by
      rw [hrec.tracks.length_eq, ← hrec.advanced.length_eq, ← hlen, ← hlabels, List.length_map]
    -- each token stands for itself
    have hself : ∀ f < query.nPhrases, named reps f = f := fun f hf => by
      obtain ⟨hin, hname⟩ := name_named hreps hf
      have hlt := (mem_phraseTokens.1 (hmem _ hin)).1
      rw [phraseOf, List.getElem?_eq_getElem hlt] at hname
      have hid := hsingle _ _ (List.getElem?_eq_getElem hlt)
      exact hid.symm.trans hname
    have horder : (∀ g < query.nPhrases, ∀ f ≤ g,
        data.posAt (named reps f) ≤ data.posAt (named reps g)) ↔
        ∀ g < query.nPhrases, ∀ f ≤ g, data.posAt f ≤ data.posAt g :=
      forall₄_congr fun g hg f hf => by rw [hself f (hf.trans_lt hg), hself g hg]
    have hnear : onItems reps (phraseOf labels)
        (NearBy query.maxInterval query.nPhrases nTokens) data.posAt a ↔
          data.posAt b - data.posAt a - nTokens (phraseOf labels a) ≤ query.maxInterval :=
      nearBy_onItems hreps ha hb fun i hi => (hends i hi).2
    change _ ↔ (∀ g < query.nPhrases, ∀ f ≤ g,
      data.posAt (named reps f) ≤ data.posAt (named reps g)) ∧ (_ ∨ onItems reps
        (phraseOf labels) (NearBy query.maxInterval query.nPhrases nTokens) data.posAt a)
    rw [horder, hnear, ← hinterval, ← hlen', ← inOrder_tokens, SelectData.matched, if_pos hmode',
      Bool.and_eq_true, SelectData.isMatchedNearPhrase, if_neg (not_lt.2 hmin'), hmax']
    refine and_congr_right fun _ => ?_
    split_ifs with hneg
    · simp [hneg]
    · simp [hneg]

/-! ## The answers -/

section Answers

variable {qs : List QueryToken} {hsss : List (List (List Hit))}

/-- A query of two or more phrases, with what its tokens know of them. The smallest interval is
no limit. -/
structure QueryPhrases (query : SelectQuery) (qs : List QueryToken) (nTokens : ℕ → ℕ) : Prop where
  two : 2 ≤ query.nPhrases
  phrases : IsPhrases (qs.map (QueryToken.labelIn false)) query.nPhrases
  nTokens : ∀ q ∈ qs, q.nTokensInPhrase = nTokens q.phraseId
  minInterval : ∀ q ∈ qs, query.minInterval ≤ -q.nTokensInPhrase

/-- What all tokens have, all labels have. -/
theorem forall_labels {P : TokenLabel → Prop} (h : ∀ q ∈ qs, P q.toTokenLabel) :
    ∀ l ∈ qs.map (QueryToken.labelIn false), P l := by
  intro l hl
  obtain ⟨q, hq, rfl⟩ := List.mem_map.1 hl
  exact h q hq

/-- Phrases that are near: one place of each, the last of them not too far behind the end of the
first. -/
def nearPhraseIn (maxInterval : ℤ) (nPhrases : ℕ) (nTokens : ℕ → ℕ) (d : Docid)
    (zs : List (TokenLabel × List Hit)) : Prop :=
  ∃ c : ℕ → ℤ, (∀ f < nPhrases, c f ∈ startsIn d zs f) ∧
    ∃ a < nPhrases, (∀ f < nPhrases, c a ≤ c f) ∧
      ∀ f < nPhrases, c f - c a - nTokens a ≤ maxInterval

/-- Behind a position the first places of the phrases are near, whichever phrase is seen to be the
first, and no two phrases with the same number of tokens begin at one place in front of it. -/
def nearPhraseReached (maxInterval : ℤ) (nPhrases : ℕ) (nTokens : ℕ → ℕ) (d : Docid)
    (zs : List (TokenLabel × List Hit)) : Prop :=
  ∃ (m : ℤ) (c : ℕ → ℤ), (∀ f < nPhrases, IsLeast (startsIn d zs f ∩ Set.Ici m) (c f)) ∧
    (∀ a < nPhrases, (∀ f < nPhrases, c a ≤ c f) →
      ∀ f < nPhrases, c f - c a - nTokens a ≤ maxInterval) ∧
    ∀ q < m, ∀ f < nPhrases, ∀ g < nPhrases, f ≠ g → q ∈ startsIn d zs f →
      q ∈ startsIn d zs g → nTokens f ≠ nTokens g

theorem chosen_nearBy {maxInterval : ℤ} {nPhrases : ℕ} {d : Docid}
    {zs : List (TokenLabel × List Hit)} :
    Chosen (List.range nPhrases) (startsIn d zs) (NearBy maxInterval nPhrases nTokens) ↔
      nearPhraseIn maxInterval nPhrases nTokens d zs := by
  simp only [Chosen, List.mem_range]
  exact Iff.rfl

theorem reached_nearBy {maxInterval : ℤ} {nPhrases : ℕ} {d : Docid}
    {zs : List (TokenLabel × List Hit)} :
    Reached (List.range nPhrases) (startsIn d zs) nTokens (NearBy maxInterval nPhrases nTokens) ↔
      nearPhraseReached maxInterval nPhrases nTokens d zs := by
  simp only [Reached, List.mem_range]
  exact Iff.rfl

/-- Phrases in the order of the query. -/
def orderedIn (nPhrases : ℕ) (d : Docid) (zs : List (TokenLabel × List Hit)) : Prop :=
  ∃ c : ℕ → ℤ, (∀ f < nPhrases, c f ∈ startsIn d zs f) ∧ ∀ g < nPhrases, ∀ f ≤ g, c f ≤ c g

/-- Behind a position the first places of the phrases are in order, and no two phrases begin at one
place in front of it. -/
def orderedReached (nPhrases : ℕ) (d : Docid) (zs : List (TokenLabel × List Hit)) : Prop :=
  ∃ (m : ℤ) (c : ℕ → ℤ), (∀ f < nPhrases, IsLeast (startsIn d zs f ∩ Set.Ici m) (c f)) ∧
    (∀ g < nPhrases, ∀ f ≤ g, c f ≤ c g) ∧
    ∀ q < m, ∀ f < nPhrases, ∀ g < nPhrases, f ≠ g → q ∈ startsIn d zs f → q ∉ startsIn d zs g

end Answers

/-! ## Phrases at hand -/

open CursorHeap (splitTerm splitTerm_holds)
open Cursor (splitTerm_skipSafe)

/-- A phrase of one token. -/
def QueryToken.single (phraseId : ℕ) (terms : List Term) : QueryToken where
  offset := 0
  phraseId := phraseId
  nTokensInPhrase := 1
  nUsedTokensInPhrase := 1
  mustLast := false
  terms := terms

/-- Two phrases, with the postings of `splitHits`. -/
def splitPhrases : List QueryToken := [.single 0 [.stored splitTerm], .single 1 [.sole 5 1 8]]

theorem splitPhrases_holds : List.Forall₂
    (fun q hss => List.Forall₂ (Term.Holds ⟨true, false, true⟩) q.terms hss)
      splitPhrases splitHits := by
  have hsole : (Term.sole 5 1 8).Holds ⟨true, false, true⟩ [soleHit 5 1 8] := rfl
  exact .cons (.cons splitTerm_holds .nil) (.cons (.cons hsole .nil) .nil)

theorem splitPhrases_skipSafe : ∀ q ∈ splitPhrases, ∀ t ∈ q.terms, t.SkipSafe := by
  intro q hq t ht
  rcases List.mem_cons.1 hq with rfl | hq
  · obtain rfl := List.mem_singleton.1 ht
    exact splitTerm_skipSafe
  · obtain rfl := List.mem_singleton.1 hq
    obtain rfl := List.mem_singleton.1 ht
    trivial

theorem splitPhrases_mem {P : QueryToken → Prop} (h₀ : P (.single 0 [.stored splitTerm]))
    (h₁ : P (.single 1 [.sole 5 1 8])) : ∀ q ∈ splitPhrases, P q := by
  intro q hq
  rcases List.mem_cons.1 hq with rfl | hq
  · exact h₀
  · obtain rfl := List.mem_singleton.1 hq
    exact h₁

theorem splitPhrases_isPhrases :
    IsPhrases (splitPhrases.map (QueryToken.labelIn false)) 2 :=
  ⟨by decide, by decide, by decide⟩

theorem splitPhrases_queryPhrases {mode : Mode} {maxInterval : ℤ} :
    QueryPhrases ⟨mode, 2, maxInterval, -2147483648⟩ splitPhrases fun _ => 1 := by
  have hmin : (-2147483648 : ℤ) ≤ -((1 : ℕ) : ℤ) := by decide
  exact ⟨Nat.le_refl 2, splitPhrases_isPhrases, splitPhrases_mem rfl rfl,
    splitPhrases_mem hmin hmin⟩

end Groonga.Ii
