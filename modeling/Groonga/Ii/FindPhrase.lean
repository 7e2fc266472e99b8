import Groonga.Ii.NearLoop
import Mathlib

/-!
# Finding a phrase

`find_phrase` goes round the tokens and moves those of one phrase on until all of them are at one
position. A token that jumps over the aim sets a new one, and the round begins again with it. So the
tokens since then are at the aim, and when they are all the tokens of the phrase, it is found. No
position in front of the aim is one of the phrase.
-/

namespace Groonga.Ii

open Line

variable {ii : Layout} {query : SelectQuery} {d : Docid} {ls₀ : List Line} {next₀ : Docid}
  {fuel k : ℕ}

/-! ## Rounds -/

/-- Of the indices below `n`, those of the last `s` steps before `t`. -/
def Seen (n t s j : ℕ) : Prop := (j < t ∧ t ≤ j + s) ∨ t + n ≤ j + s

instance {n t s : ℕ} : DecidablePred (Seen n t s) := fun _ => inferInstanceAs (Decidable (_ ∨ _))

section Seen

variable {n t s j : ℕ}

theorem seen_succ : Seen n (t + 1) (s + 1) j ↔ Seen n t s j ∨ j = t := by
  unfold Seen
  omega

theorem not_seen_self (hs : s < n) : ¬ Seen n t s t := by
  unfold Seen
  omega

theorem seen_one (hj : j < n) : Seen n (t + 1) 1 j ↔ j = t := by
  unfold Seen
  omega

theorem seen_all (ht : t ≤ n) : Seen n t n j := by
  unfold Seen
  omega

/-- Behind the last index comes the first one. -/
theorem seen_wrap (hj : j < n) : Seen n (if t = n then 0 else t) s j ↔ Seen n t s j := by
  unfold Seen
  split_ifs <;> omega

end Seen

/-! ## The loop -/

/-- The phrase begins at a position: all its tokens are there. -/
def PhraseAt (G : Finset ℕ) (d : Docid) (ls : List Line) (p : ℤ) : Prop :=
  ∀ j ∈ G, ∀ x ∈ ls[j]?, x.OccursAt d p

/-- The tokens of a phrase. -/
structure IsPhrase (ls : List Line) (phraseId : ℕ) (G : Finset ℕ) : Prop where
  nonempty : G.Nonempty
  mem : ∀ j, j ∈ G ↔ ∃ x ∈ ls[j]?, x.label.phraseId = phraseId
  used : ∀ j ∈ G, ∀ x ∈ ls[j]?, x.label.nUsedTokensInPhrase = G.card

/-- The state of the loop: `t` is the next token, and the last `s` were found at `startPos`. -/
structure Aiming (ii : Layout) (query : SelectQuery) (d : Docid) (ls₀ : List Line)
    (next₀ : Docid) (G : Finset ℕ) (data₁ : SelectData) (ls₁ : List Line) (start : ℤ) (t s : ℕ)
    (startPos : ℤ) (data : SelectData) (ls : List Line) : Prop where
  inRecord : InRecord ii query d ls₀ next₀ data ls
  nOccurrences : data.nOccurrences = data₁.nOccurrences
  pos : data.pos = data₁.pos
  seen : ∀ j ∈ G, Seen ls₀.length t s j →
    data.posAt j = startPos ∧ ∀ x ∈ ls[j]?, x.IsAt d startPos
  start_le : start ≤ startPos
  none_before : ∀ p, start ≤ p → p < startPos → ¬ PhraseAt G d ls₁ p
  advanced : Advanced (fun d' p => d' = d → startPos ≤ p) ls₁ ls
  other : ∀ j ∉ G, data.tokenInfos[j]? = data₁.tokenInfos[j]? ∧ ls[j]? = ls₁[j]?

/-- How many tokens of the phrase are at the aim. -/
def nSeen (n : ℕ) (G : Finset ℕ) (t s : ℕ) : ℕ := (G.filter (Seen n t s)).card

/-- How `find_phrase` ends. -/
inductive PhraseFound (ii : Layout) (query : SelectQuery) (d : Docid) (ls₀ : List Line)
    (next₀ : Docid) (G : Finset ℕ) (data₁ : SelectData) (ls₁ : List Line) (start : ℤ)
    (data' : SelectData) : Bool → Prop where
  | ended (hrests : Rests ii query d ls₀ next₀ data')
      (hnone : ∀ p, start ≤ p → ¬ PhraseAt G d ls₁ p) :
      PhraseFound ii query d ls₀ next₀ G data₁ ls₁ start data' false
  | found (ls' : List Line) (p : ℤ) (hrec : InRecord ii query d ls₀ next₀ data' ls')
      (hcur : data'.currentTokenInfo ∈ G) (hstart : data'.pos = data₁.pos)
      (hpos : ∀ j ∈ G, data'.posAt j = p)
      (hleast : IsLeast {p | start ≤ p ∧ PhraseAt G d ls₁ p} p)
      (hadv : Advanced (fun d' q => d' = d → p ≤ q) ls₁ ls')
      (hother : ∀ j ∉ G, data'.tokenInfos[j]? = data₁.tokenInfos[j]? ∧ ls'[j]? = ls₁[j]?) :
      PhraseFound ii query d ls₀ next₀ G data₁ ls₁ start data' true

section Loop

variable {G : Finset ℕ} {phraseId t s : ℕ} {data₁ data : SelectData} {ls₁ ls : List Line}
  {start startPos : ℤ} {B : ℤ}

theorem IsPhrase.lt (h : IsPhrase ls₀ phraseId G) {j : ℕ} (hj : j ∈ G) : j < ls₀.length := by
  obtain ⟨x, hx, -⟩ := (h.mem j).1 hj
  exact (List.getElem?_eq_some_iff.1 hx).1

/-- Not all tokens were seen when not all of the phrase are at the aim. -/
theorem lt_of_nSeen_lt (ht : t ≤ ls₀.length) (hs : s ≤ ls₀.length)
    (hlt : nSeen ls₀.length G t s < G.card) : s < ls₀.length := by
  refine hs.lt_of_ne fun heq => ?_
  subst heq
  refine hlt.ne (congrArg Finset.card (Finset.filter_true_of_mem fun j _ => ?_))
  exact seen_all ht

/-- The tokens are seen one after the other. -/
theorem nSeen_succ (hs : s < ls₀.length) :
    nSeen ls₀.length G (t + 1) (s + 1) =
      nSeen ls₀.length G t s + if t ∈ G then 1 else 0 := by
  have hfilter : G.filter (Seen ls₀.length (t + 1) (s + 1)) =
      G.filter fun j => Seen ls₀.length t s j ∨ j = t :=
    Finset.filter_congr fun j _ => seen_succ
  unfold nSeen
  rw [hfilter]
  split_ifs with hmem
  · have hinsert : (G.filter fun j => Seen ls₀.length t s j ∨ j = t) =
        insert t (G.filter (Seen ls₀.length t s)) := by
      ext j
      simp only [Finset.mem_filter, Finset.mem_insert]
      constructor
      · rintro ⟨hj, hor | rfl⟩
        · exact .inr ⟨hj, hor⟩
        · exact .inl rfl
      · rintro (rfl | ⟨hj, hor⟩)
        · exact ⟨hmem, .inr rfl⟩
        · exact ⟨hj, .inl hor⟩
    rw [hinsert, Finset.card_insert_of_notMem]
    rw [Finset.mem_filter, not_and]
    exact fun _ => not_seen_self hs
  · congr 1
    refine Finset.filter_congr fun j hj => or_iff_left ?_
    rintro rfl
    exact hmem hj

theorem nSeen_one (hG : ∀ j ∈ G, j < ls₀.length) (ht : t ∈ G) :
    nSeen ls₀.length G (t + 1) 1 = 1 := by
  have hfilter : G.filter (Seen ls₀.length (t + 1) 1) = {t} := by
    ext j
    rw [Finset.mem_filter, Finset.mem_singleton]
    constructor
    · rintro ⟨hj, hseen⟩
      exact (seen_one (hG j hj)).1 hseen
    · rintro rfl
      exact ⟨ht, (seen_one (hG j ht)).2 rfl⟩
  rw [nSeen, hfilter, Finset.card_singleton]

theorem nSeen_wrap (hG : ∀ j ∈ G, j < ls₀.length) :
    nSeen ls₀.length G (if t = ls₀.length then 0 else t) s = nSeen ls₀.length G t s :=
  congrArg Finset.card (Finset.filter_congr fun j hj => seen_wrap (hG j hj))

/-- The labels of a token. -/
theorem InRecord.phraseIdAt {x : Line} {j : ℕ} (h : InRecord ii query d ls₀ next₀ data ls)
    (hj : ls₀[j]? = some x) : data.phraseIdAt j = x.label.phraseId := by
  obtain ⟨ti, hti, hlabel⟩ := h.rests.token hj
  rw [SelectData.phraseIdAt, hti]
  exact congrArg TokenLabel.phraseId hlabel

/-- All the tokens of the phrase are at the aim. -/
theorem Aiming.found {c : ℕ} (h : Aiming ii query d ls₀ next₀ G data₁ ls₁ start t s startPos
    data ls) (hcount : nSeen ls₀.length G t s = G.card) (hc : c ∈ G) :
    PhraseFound ii query d ls₀ next₀ G data₁ ls₁ start { data with currentTokenInfo := c } true := by
  have hseen : ∀ j ∈ G, Seen ls₀.length t s j := fun j hj =>
    (Finset.filter_eq_self.1 (Finset.eq_of_subset_of_card_le (Finset.filter_subset _ _)
      hcount.ge)) j hj
  refine .found ls startPos { h.inRecord with } hc h.pos (fun j hj => (h.seen j hj (hseen j hj)).1)
    ⟨⟨h.start_le, fun j hj x hx => ?_⟩, fun p hp => ?_⟩ h.advanced h.other
  · obtain ⟨hlt, rfl⟩ := List.getElem?_eq_some_iff.1 hx
    have hlt' : j < ls.length := h.advanced.length_eq ▸ hlt
    have hx' := List.getElem?_eq_getElem hlt'
    have hs := List.forall₂_iff_get.1 h.advanced |>.2 j hlt hlt'
    simp only [List.get_eq_getElem] at hs
    exact hs.occursAt ((h.seen j hj (hseen j hj)).2 _ hx').occursAt
  · exact not_lt.1 fun hlt => h.none_before p hp.1 hlt hp.2

/-- **The loop of `find_phrase`.** -/
theorem findPhraseLoop_spec {tip : ℕ} {tiLast mustLastTi : Option ℕ} {nSame : ℕ}
    (hfrom : From d ls₀) (hlength : ∀ x ∈ ls₀, x.occs.length < fuel)
    (hB : ∀ x ∈ ls₀, ∀ o ∈ x.occs, x.rel o < B) (hphrase : IsPhrase ls₀ phraseId G)
    (h : Aiming ii query d ls₀ next₀ G data₁ ls₁ start tip s startPos data ls)
    (htip : tip ≤ ls₀.length) (hs : s ≤ ls₀.length)
    (hlast : (tiLast = none ∧ s = 0) ∨ ∃ t₀, tiLast = some t₀ ∧ t₀ < ls₀.length ∧ 0 < s ∧
      (t₀ + s = tip ∨ t₀ + s = tip + ls₀.length))
    (hmust : ∀ j ∈ mustLastTi, j ∈ G) (hcount : nSame = nSeen ls₀.length G tip s)
    (hfew : nSame < G.card)
    (hk : (B - startPos).toNat * (ls₀.length + 1) + ls₀.length < k + s) :
    ∃ data' ok, SelectData.findPhraseLoop ii fuel phraseId k tip tiLast mustLastTi startPos nSame
        data = some (data', ok) ∧ data'.nOccurrences = data₁.nOccurrences ∧
      PhraseFound ii query d ls₀ next₀ G data₁ ls₁ start data' ok := by
  induction k generalizing tip tiLast mustLastTi nSame s startPos data ls with
  | zero => omega
  | succ k ih =>
    have hG : ∀ j ∈ G, j < ls₀.length := fun j hj => hphrase.lt hj
    have hlen : data.tokenInfos.length = ls₀.length :=
      h.inRecord.tracks.length_eq.trans h.inRecord.advanced.length_eq.symm
    have hs' : s < ls₀.length := lt_of_nSeen_lt htip hs (hcount ▸ hfew)
    rw [SelectData.findPhraseLoop]
    -- after the last token comes the first one
    set t := if tip = data.tokenInfos.length then 0 else tip with ht
    rw [hlen] at ht
    have htlt : t < ls₀.length := by
      rw [ht]
      split_ifs <;> omega
    have hseen : ∀ j ∈ G, (Seen ls₀.length t s j ↔ Seen ls₀.length tip s j) := fun j hj => by
      rw [ht]
      exact seen_wrap (hG j hj)
    have hcount' : nSame = nSeen ls₀.length G t s := by
      rw [ht, nSeen_wrap hG, hcount]
    -- no round is over: all the tokens would be at the aim
    have hround : tiLast ≠ some t := by
      rintro rfl
      rcases hlast with ⟨hnone, -⟩ | ⟨t₀, heq, -, hpos, hor⟩
      · cases hnone
      · cases heq
        split_ifs at ht <;> omega
    set last := if tiLast = none then some t else tiLast with hlastdef
    have hlast' : ∃ t₀, last = some t₀ ∧ t₀ < ls₀.length ∧
        (t₀ + s = t ∨ t₀ + s = t + ls₀.length) := by
      rcases hlast with ⟨rfl, rfl⟩ | ⟨t₀, rfl, hlt, hpos, hor⟩
      · exact ⟨t, rfl, htlt, .inl rfl⟩
      · refine ⟨t₀, rfl, hlt, ?_⟩
        split_ifs at ht <;> omega
    obtain ⟨x₀, hx₀⟩ : ∃ x, ls₀[t]? = some x := ⟨_, List.getElem?_eq_getElem htlt⟩
    have hid : ({ data with currentTokenInfo := t } : SelectData).phraseIdAt t =
        x₀.label.phraseId := h.inRecord.phraseIdAt hx₀
    have hmem : t ∈ G ↔ x₀.label.phraseId = phraseId := by
      rw [hphrase.mem]
      constructor
      · rintro ⟨x, hx, hid⟩
        cases hx₀.symm.trans hx
        exact hid
      · exact fun hid => ⟨x₀, hx₀, hid⟩
    simp only [if_neg hround, hid]
    by_cases hin : t ∈ G
    · rw [if_neg (not_not.2 (hmem.1 hin))]
      set must := if ({ data with currentTokenInfo := t } : SelectData).mustLastAt t then some t
        else mustLastTi with hmustdef
      obtain ⟨x, hx⟩ : ∃ x, ls[t]? = some x :=
        ⟨_, List.getElem?_eq_getElem (h.inRecord.advanced.length_eq ▸ htlt)⟩
      obtain ⟨x₁, hx₁, hs₁⟩ := getElem?_of_forall₂ h.advanced hx
      have hrec : InRecord ii query d ls₀ next₀ { data with currentTokenInfo := t } ls :=
        { h.inRecord with }
      obtain ⟨data', ok, hrun, hocc, hor⟩ := hrec.skipPos hfrom hlength hx startPos
      rw [hrun]
      simp only [Option.bind_eq_bind, Option.bind_some]
      rcases hor with ⟨rfl, hlow, hrests⟩ | ⟨ti, x', rfl, rfl, hrec', hshort, htrack, hge, hpos⟩
      · -- the token does not occur behind the aim
        refine ⟨_, false, rfl, hocc.trans h.nOccurrences, .ended hrests fun p hp hph => ?_⟩
        rcases lt_or_ge p startPos with hlt | hge
        · exact h.none_before p hp hlt hph
        · exact not_lt.2 hge (hlow p (hs₁.kept d p (fun _ => hge) (hph t hin x₁ hx₁)))
      · simp only [Bool.not_true, Bool.false_eq_true, if_false]
        set data₂ : SelectData :=
          { data with currentTokenInfo := t, tokenInfos := data.tokenInfos.set t ti } with hdata₂
        have htlt' : t < data.tokenInfos.length := hlen ▸ htlt
        have hposAt : ∀ j, data₂.posAt j = if j = t then ti.pos else data.posAt j := fun j =>
          @posAt_set { data with currentTokenInfo := t } _ t j htlt'
        have hx' : ∀ y ∈ (ls.set t x')[t]?, y = x' := fun y hy => by
          rw [List.getElem?_set_self (List.getElem?_eq_some_iff.1 hx).1] at hy
          cases hy
          rfl
        have hused : (data₂.tokenInfos[t]?.map fun ti => ti.nUsedTokensInPhrase).getD 0 =
            G.card := by
          obtain ⟨tj, htj, hlabel⟩ := hrec'.rests.token hx₀
          rw [htj]
          exact (congrArg TokenLabel.nUsedTokensInPhrase hlabel).trans
            (hphrase.used t hin x₀ hx₀)
        have hset : ∀ j, j ≠ t → (ls.set t x')[j]? = ls[j]? := fun j hj =>
          List.getElem?_set_ne (Ne.symm hj)
        have hother : ∀ j ∉ G, data₂.tokenInfos[j]? = data₁.tokenInfos[j]? ∧
            (ls.set t x')[j]? = ls₁[j]? := by
          intro j hj
          have hjt : j ≠ t := fun heq => hj (heq ▸ hin)
          obtain ⟨h1, h2⟩ := h.other j hj
          exact ⟨(List.getElem?_set_ne (Ne.symm hjt)).trans h1, (hset j hjt).trans h2⟩
        have hadv : Advanced (fun d' p => d' = d → startPos ≤ p) ls₁ (ls.set t x') :=
          h.advanced.trans (.set hx hshort)
        have hmust' : ∀ j ∈ must, j ∈ G := by
          intro j hj
          rw [hmustdef] at hj
          split_ifs at hj
          · cases hj
            exact hin
          · exact hmust j hj
        -- what is left to do once the token is at a position in the record
        have hgo : ∀ s' nSame' startPos' last', Aiming ii query d ls₀ next₀ G data₁ ls₁ start
            (t + 1) s' startPos' data₂ (ls.set t x') → nSame' = nSeen ls₀.length G (t + 1) s' →
            s' ≤ ls₀.length →
            (∃ t₀, last' = some t₀ ∧ t₀ < ls₀.length ∧ 0 < s' ∧
              (t₀ + s' = t + 1 ∨ t₀ + s' = t + 1 + ls₀.length)) →
            (B - startPos').toNat * (ls₀.length + 1) + ls₀.length < k + s' →
            ∃ data' ok, (if nSame' = G.card then
                some ({ data₂ with currentTokenInfo := must.getD t }, true)
              else SelectData.findPhraseLoop ii fuel phraseId k (t + 1) last' must startPos' nSame'
                data₂) = some (data', ok) ∧
              data'.nOccurrences = data₁.nOccurrences ∧
              PhraseFound ii query d ls₀ next₀ G data₁ ls₁ start data' ok := by
          intro s' nSame' startPos' last' haim hc hs' hl hk'
          by_cases hall : nSame' = G.card
          · rw [if_pos hall]
            refine ⟨_, true, rfl, haim.nOccurrences, haim.found (hc ▸ hall) ?_⟩
            cases hm : must with
            | none => exact hin
            | some j => exact hmust' j hm
          · rw [if_neg hall]
            have hle : nSame' ≤ G.card := hc ▸ Finset.card_filter_le _ _
            exact ih haim (by omega) hs' (.inr hl) hmust' hc (by omega) hk'
        rw [hused, hposAt t, if_pos rfl]
        by_cases heq : ti.pos = startPos
        · rw [if_pos heq, heq, if_neg (lt_irrefl startPos)]
          obtain ⟨t₀, hl, hlt, hor⟩ := hlast'
          refine hgo (s + 1) _ _ _ ⟨hrec', hocc.trans h.nOccurrences, h.pos, fun j hj hsj => ?_,
            h.start_le, h.none_before, hadv, hother⟩ ?_ (by omega)
            ⟨t₀, hl, hlt, by omega, by omega⟩ (by omega)
          · rcases seen_succ.1 hsj with hsj | rfl
            · have hjt : j ≠ t := by
                rintro rfl
                exact not_seen_self hs' hsj
              rw [hposAt, if_neg hjt, hset j hjt]
              exact h.seen j hj ((hseen j hj).1 hsj)
            · rw [hposAt, if_pos rfl]
              refine ⟨heq, fun y hy => ?_⟩
              rw [hx' y hy, ← heq]
              exact hpos
          · rw [nSeen_succ hs', if_pos hin, hcount']
        · -- a new aim: the phrase does not begin in front of it
          have hgt : startPos < ti.pos := lt_of_le_of_ne hge (Ne.symm heq)
          rw [if_neg heq, if_pos hgt]
          refine hgo 1 1 _ _ ⟨hrec', hocc.trans h.nOccurrences, h.pos, fun j hj hsj => ?_,
            h.start_le.trans hge, fun p hp hlt hph => ?_,
            hadv.mono fun d' p hp hd' => hge.trans (hp hd'), hother⟩
            (nSeen_one hG hin).symm (by omega) ⟨t, rfl, htlt, Nat.one_pos, .inl rfl⟩ ?_
          · obtain rfl := (seen_one (hG j hj)).1 hsj
            rw [hposAt, if_pos rfl]
            refine ⟨rfl, fun y hy => ?_⟩
            rw [hx' y hy]
            exact hpos
          · rcases lt_or_ge p startPos with hlt' | hge'
            · exact h.none_before p hp hlt' hph
            · have hkept := hshort.kept d p (fun _ => hge')
                (hs₁.kept d p (fun _ => hge') (hph t hin x₁ hx₁))
              exact not_lt.2 (hpos.le htrack.sorted hkept) hlt
          · have hB' : ti.pos < B := by
              obtain ⟨o, os, hhead, -, hrel⟩ := hpos
              obtain ⟨z, hz, hsz⟩ := hrec'.advanced.exists_left
                (List.mem_of_getElem? (List.getElem?_set_self (a := x')
                  (List.getElem?_eq_some_iff.1 hx).1))
              have := hB z hz o (hsz.suffix.subset (hhead ▸ List.mem_cons_self))
              rwa [rel, ← hsz.label, ← rel, hrel] at this
            have hle : (B - ti.pos).toNat + 1 ≤ (B - startPos).toNat := by omega
            have hmul := Nat.mul_le_mul_right (ls₀.length + 1) hle
            rw [Nat.add_mul, Nat.one_mul] at hmul
            omega
    · -- a token of another phrase
      rw [if_pos (mt hmem.2 hin)]
      obtain ⟨t₀, hl, hlt, hor⟩ := hlast'
      have hsucc : ∀ j ∈ G, Seen ls₀.length (t + 1) (s + 1) j → Seen ls₀.length tip s j := by
        intro j hj hsj
        refine (hseen j hj).1 ((seen_succ.1 hsj).resolve_right ?_)
        rintro rfl
        exact hin hj
      refine ih ⟨{ h.inRecord with }, h.nOccurrences, h.pos, fun j hj hsj => h.seen j hj (hsucc j hj hsj),
        h.start_le, h.none_before, h.advanced, h.other⟩ (by omega) (by omega)
        (.inr ⟨t₀, hl, hlt, by omega, by omega⟩) hmust ?_ hfew (by omega)
      rw [nSeen_succ hs', if_neg hin]
      exact hcount'

/-- **`find_phrase`** moves the tokens of a phrase to the first place at which it begins. -/
theorem findPhrase_spec (hfrom : From d ls₀) (hlength : ∀ x ∈ ls₀, x.occs.length < fuel)
    (hB : ∀ x ∈ ls₀, ∀ o ∈ x.occs, x.rel o < B) (hphrase : IsPhrase ls₀ phraseId G)
    (h : InRecord ii query d ls₀ next₀ data ls) (start : ℤ)
    (hk : (B - start).toNat * (ls₀.length + 1) + ls₀.length < fuel) :
    ∃ data' ok, data.findPhrase ii fuel phraseId start = some (data', ok) ∧
      data'.nOccurrences = data.nOccurrences ∧
      PhraseFound ii query d ls₀ next₀ G data ls start data' ok := by
  have hseen : ∀ j ∈ G, ¬ Seen ls₀.length 0 0 j := fun j hj => by
    have := hphrase.lt hj
    unfold Seen
    omega
  have hzero : nSeen ls₀.length G 0 0 = 0 := by
    rw [nSeen, Finset.card_eq_zero]
    exact Finset.filter_false_of_mem hseen
  exact findPhraseLoop_spec hfrom hlength hB hphrase
    ⟨h, rfl, rfl, fun j hj hs => absurd hs (hseen j hj), le_rfl,
      fun p hp hlt => absurd hp (not_le.2 hlt), .refl ls, fun j _ => ⟨rfl, rfl⟩⟩
    (Nat.zero_le _) (Nat.zero_le _) (.inl ⟨rfl, rfl⟩) nofun hzero.symm hphrase.nonempty.card_pos
    hk

end Loop

end Groonga.Ii
