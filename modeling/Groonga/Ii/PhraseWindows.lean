import Groonga.Ii.FindPhrase

/-!
# Windows of phrases

When whole phrases are searched, the one that is furthest behind goes on to its next place. So the
first places of all the phrases behind a position are looked at, for one position after the other.
But the loop ends when two phrases with the same number of tokens begin at one place: it seems that
nothing was moved. What is behind such a place is never looked at.
-/

namespace Groonga.Ii

open Line Lib

/-! ## What is looked at -/

section Places

variable {items : List ℕ} {S : ℕ → Set ℤ} {nTokens : ℕ → ℕ} {W : (ℕ → ℤ) → ℕ → Prop}
  {p : ℕ → ℤ} {a : ℕ}

/-- **There is a window**: one place of each item, with `a` at the least of them. -/
def Chosen (items : List ℕ) (S : ℕ → Set ℤ) (W : (ℕ → ℤ) → ℕ → Prop) : Prop :=
  ∃ c : ℕ → ℤ, (∀ i ∈ items, c i ∈ S i) ∧ ∃ a ∈ items, (∀ i ∈ items, c a ≤ c i) ∧ W c a

/-- **A window is reached**: the first places behind a position are one, whichever item is seen to
be the first, and up to there no two items with the same number of tokens are at one place. -/
def Reached (items : List ℕ) (S : ℕ → Set ℤ) (nTokens : ℕ → ℕ) (W : (ℕ → ℤ) → ℕ → Prop) : Prop :=
  ∃ (m : ℤ) (c : ℕ → ℤ), (∀ i ∈ items, IsLeast (S i ∩ Set.Ici m) (c i)) ∧
    (∀ a ∈ items, (∀ i ∈ items, c a ≤ c i) → W c a) ∧
    ∀ q < m, ∀ i ∈ items, ∀ j ∈ items, i ≠ j → q ∈ S i → q ∈ S j → nTokens i ≠ nTokens j

theorem Chosen.of_update {T : Set ℤ} (h : Chosen items (Function.update S a (S a ∩ T)) W) :
    Chosen items S W := by
  obtain ⟨c, hc, hor⟩ := h
  refine ⟨c, fun i hi => ?_, hor⟩
  have := hc i hi
  by_cases hia : i = a
  · subst hia
    rw [Function.update_self] at this
    exact this.1
  · rwa [Function.update_of_ne hia] at this

/-- The least places are no window, and so one behind them is reached. -/
theorem Reached.behind (h : Reached items S nTokens W) (hp : ∀ i ∈ items, IsLeast (S i) (p i))
    (ha : a ∈ items) (hle : ∀ i ∈ items, p a ≤ p i)
    (hcongr : ∀ c, (∀ i ∈ items, c i = p i) → W c a → W p a) (hno : ¬ W p a) :
    (∃ q ∈ S a, p a < q) ∧ (∀ j ∈ items, j ≠ a → p j = p a → nTokens j ≠ nTokens a) ∧
      Reached items (Function.update S a (S a ∩ Set.Ici (p a + 1))) nTokens W := by
  obtain ⟨m, c, hc, hW, hties⟩ := h
  have hlt : p a < m := by
    refine not_le.1 fun hm => hno ?_
    have heq : ∀ i ∈ items, c i = p i := fun i hi => by
      refine le_antisymm ((hc i hi).2 ⟨(hp i hi).1, hm.trans (hle i hi)⟩) ?_
      exact (hp i hi).2 (hc i hi).1.1
    refine hcongr c heq (hW a ha fun i hi => ?_)
    rw [heq a ha, heq i hi]
    exact hle i hi
  have hsub : ∀ i, ∀ q ∈ Function.update S a (S a ∩ Set.Ici (p a + 1)) i, q ∈ S i := by
    intro i q hq
    by_cases hia : i = a
    · subst hia
      rw [Function.update_self] at hq
      exact hq.1
    · rwa [Function.update_of_ne hia] at hq
  refine ⟨⟨c a, (hc a ha).1.1, hlt.trans_le (hc a ha).1.2⟩, fun j hj hne heq => ?_, m, c,
    fun i hi => ?_, hW, fun q hq i hi j hj hne hqi hqj => ?_⟩
  · exact hties (p a) hlt j hj a ha hne (heq ▸ (hp j hj).1) (hp a ha).1
  · obtain ⟨⟨hmem, hge⟩, hleast⟩ := hc i hi
    refine ⟨⟨?_, hge⟩, fun q hq => hleast ⟨hsub i q hq.1, hq.2⟩⟩
    by_cases hia : i = a
    · subst hia
      rw [Function.update_self]
      refine ⟨hmem, ?_⟩
      simp only [Set.mem_Ici] at hge ⊢
      omega
    · rwa [Function.update_of_ne hia]
  · exact hties q hq i hi j hj hne (hsub i q hqi) (hsub j q hqj)

/-- What is reached behind the least places is reached if no two items are there. -/
theorem Reached.of_behind (hp : ∀ i ∈ items, IsLeast (S i) (p i)) (ha : a ∈ items)
    (hle : ∀ i ∈ items, p a ≤ p i) (hone : ∀ j ∈ items, j ≠ a → p j ≠ p a)
    (h : Reached items (Function.update S a (S a ∩ Set.Ici (p a + 1))) nTokens W) :
    Reached items S nTokens W := by
  obtain ⟨m, c, hc, hW, hties⟩ := h
  have hmem : ∀ i ∈ items, ∀ q, p a < q →
      (q ∈ Function.update S a (S a ∩ Set.Ici (p a + 1)) i ↔ q ∈ S i) := by
    intro i hi q hq
    by_cases hia : i = a
    · subst hia
      rw [Function.update_self]
      exact ⟨fun h => h.1, fun h => ⟨h, Int.add_one_le_iff.2 hq⟩⟩
    · rw [Function.update_of_ne hia]
  have hbehind : ∀ i ∈ items, p a < c i := by
    intro i hi
    have := (hc i hi).1.1
    by_cases hia : i = a
    · subst hia
      rw [Function.update_self] at this
      exact Int.add_one_le_iff.1 this.2
    · rw [Function.update_of_ne hia] at this
      refine lt_of_lt_of_le ?_ ((hp i hi).2 this)
      exact lt_of_le_of_ne (hle i hi) (Ne.symm (hone i hi hia))
  refine ⟨max m (p a + 1), c, fun i hi => ⟨⟨?_, ?_⟩, fun q hq => ?_⟩, hW,
    fun q hq i hi j hj hne hqi hqj => ?_⟩
  · exact (hmem i hi _ (hbehind i hi)).1 (hc i hi).1.1
  · exact max_le (hc i hi).1.2 (Int.add_one_le_iff.2 (hbehind i hi))
  · obtain ⟨h1, h2⟩ := max_le_iff.1 (Set.mem_Ici.1 hq.2)
    exact (hc i hi).2 ⟨(hmem i hi q (Int.add_one_le_iff.1 h2)).2 hq.1, h1⟩
  · rcases lt_trichotomy q (p a) with hlt | rfl | hlt
    · exact absurd ((hp i hi).2 hqi) (not_le.2 (hlt.trans_le (hle i hi)))
    · -- only `a` is there
      have hself : ∀ k ∈ items, p a ∈ S k → k = a := fun k hk hmem' => by
        by_contra hka
        exact hone k hk hka (le_antisymm ((hp k hk).2 hmem') (hle k hk))
      exact absurd ((hself i hi hqi).trans (hself j hj hqj).symm) hne
    · refine hties q ?_ i hi j hj hne ((hmem i hi q hlt).2 hqi) ((hmem j hj q hlt).2 hqj)
      omega

/-- A window of the least places is reached at once. -/
theorem reached_least (hp : ∀ i ∈ items, IsLeast (S i) (p i)) (hle : ∀ i ∈ items, p a ≤ p i)
    (hW : ∀ b ∈ items, (∀ i ∈ items, p b ≤ p i) → W p b) : Reached items S nTokens W := by
  refine ⟨p a, p, fun i hi => ⟨⟨(hp i hi).1, hle i hi⟩, fun q hq => (hp i hi).2 hq.1⟩, hW,
    fun q hq i hi j _ _ hqi _ => ?_⟩
  exact absurd ((hp i hi).2 hqi) (not_le.2 (hq.trans_le (hle i hi)))

end Places

/-! ## Items that stand for others -/

section Names

variable {reps : List ℕ} {name : ℕ → ℕ} {n : ℕ} {P : ℕ → Set ℤ} {nTokens : ℕ → ℕ}
  {W : (ℕ → ℤ) → ℕ → Prop} {f i : ℕ}

/-- The item with the name `f`. -/
def named (reps : List ℕ) (f : ℕ) : ℕ := reps.getD f 0

theorem name_named (h : reps.map name = List.range n) (hf : f < n) :
    named reps f ∈ reps ∧ name (named reps f) = f := by
  have hlen : reps.length = n := by
    have := congrArg List.length h
    rwa [List.length_map, List.length_range] at this
  have hlt : f < reps.length := hlen.symm ▸ hf
  have hget : (reps.map name)[f]? = some f := by
    rw [h, List.getElem?_range hf]
  rw [List.getElem?_map, List.getElem?_eq_getElem hlt] at hget
  have heq : named reps f = reps[f] := by
    rw [named, List.getD_eq_getElem?_getD, List.getElem?_eq_getElem hlt]
    rfl
  rw [heq]
  exact ⟨List.getElem_mem hlt, Option.some.inj hget⟩

theorem named_name (h : reps.map name = List.range n) (hi : i ∈ reps) :
    name i < n ∧ named reps (name i) = i := by
  obtain ⟨k, hk, rfl⟩ := List.mem_iff_getElem.1 hi
  have hget : (List.range n)[k]? = some (name reps[k]) := by
    rw [← h, List.getElem?_map, List.getElem?_eq_getElem hk]
    rfl
  obtain ⟨hlt, hname⟩ := List.getElem?_eq_some_iff.1 hget
  rw [List.length_range] at hlt
  rw [List.getElem_range] at hname
  rw [← hname, named, List.getD_eq_getElem?_getD, List.getElem?_eq_getElem hk]
  exact ⟨hlt, rfl⟩

theorem name_injective (h : reps.map name = List.range n) {j : ℕ} (hi : i ∈ reps) (hj : j ∈ reps)
    (heq : name i = name j) : i = j := by
  rw [← (named_name h hi).2, heq, (named_name h hj).2]

/-- The windows seen on the items. -/
def onItems (reps : List ℕ) (name : ℕ → ℕ) (W : (ℕ → ℤ) → ℕ → Prop) (c : ℕ → ℤ) (a : ℕ) : Prop :=
  W (fun f => c (named reps f)) (name a)

theorem Chosen.of_items (h : reps.map name = List.range n)
    (hc : Chosen reps (fun i => P (name i)) (onItems reps name W)) :
    Chosen (List.range n) P W := by
  obtain ⟨c, hmem, a, ha, hle, hW⟩ := hc
  refine ⟨fun f => c (named reps f), fun f hf => ?_, name a,
    List.mem_range.2 (named_name h ha).1, fun f hf => ?_, hW⟩
  · obtain ⟨hin, heq⟩ := name_named h (List.mem_range.1 hf)
    have : c (named reps f) ∈ P (name (named reps f)) := hmem _ hin
    rwa [heq] at this
  · simp only [(named_name h ha).2]
    exact hle _ (name_named h (List.mem_range.1 hf)).1

theorem Reached.of_items (h : reps.map name = List.range n)
    (hr : Reached reps (fun i => P (name i)) (fun i => nTokens (name i))
      (onItems reps name W)) : Reached (List.range n) P nTokens W := by
  obtain ⟨m, c, hc, hW, hties⟩ := hr
  have hname : ∀ f ∈ List.range n, named reps f ∈ reps ∧ name (named reps f) = f := fun f hf =>
    name_named h (List.mem_range.1 hf)
  refine ⟨m, fun f => c (named reps f), fun f hf => ?_, fun f hf hle => ?_,
    fun q hq f hf g hg hne hqf hqg => ?_⟩
  · obtain ⟨hin, heq⟩ := hname f hf
    have : IsLeast (P (name (named reps f)) ∩ Set.Ici m) (c (named reps f)) := hc _ hin
    rwa [heq] at this
  · obtain ⟨hin, heq⟩ := hname f hf
    have := hW _ hin fun i hi => by
      have : c (named reps f) ≤ c (named reps (name i)) :=
        hle (name i) (List.mem_range.2 (named_name h hi).1)
      rwa [(named_name h hi).2] at this
    rwa [onItems, heq] at this
  · obtain ⟨hinf, heqf⟩ := hname f hf
    obtain ⟨hing, heqg⟩ := hname g hg
    have hmem : ∀ i ∈ reps, q ∈ P (name i) → q ∈ (fun i => P (name i)) i := fun _ _ h => h
    have : nTokens (name (named reps f)) ≠ nTokens (name (named reps g)) :=
      hties q hq _ hinf _ hing (fun heq => hne (by rw [← heqf, heq, heqg]))
        (hmem _ hinf (by rwa [heqf])) (hmem _ hing (by rwa [heqg]))
    rwa [heqf, heqg] at this

theorem Reached.on_items (h : reps.map name = List.range n)
    (hcongr : ∀ {c c' : ℕ → ℤ} {a}, a < n → (∀ f < n, c f = c' f) → W c a → W c' a)
    (hr : Reached (List.range n) P nTokens W) :
    Reached reps (fun i => P (name i)) (fun i => nTokens (name i)) (onItems reps name W) := by
  obtain ⟨m, c, hc, hW, hties⟩ := hr
  have hname : ∀ i ∈ reps, name i ∈ List.range n := fun i hi =>
    List.mem_range.2 (named_name h hi).1
  refine ⟨m, fun i => c (name i), fun i hi => hc _ (hname i hi), fun a ha hle => ?_,
    fun q hq i hi j hj hne hqi hqj => ?_⟩
  · refine hcongr (named_name h ha).1 (fun f hf => ?_) (hW _ (hname a ha) fun f hf => ?_)
    · exact congrArg c (name_named h hf).2.symm
    · obtain ⟨hin, heq⟩ := name_named h (List.mem_range.1 hf)
      have : c (name a) ≤ c (name (named reps f)) := hle _ hin
      rwa [heq] at this
  · exact hties q hq _ (hname i hi) _ (hname j hj)
      (fun heq => hne (name_injective h hi hj heq)) hqi hqj

end Names

/-! ## The loop -/

section Loop

variable {ii : Layout} {query : SelectQuery} {d : Docid} {ls₀ : List Line} {next₀ : Docid}
  {fuel k : ℕ} {reps : List ℕ} {V : SelectData → (ℕ → Set ℤ) → Prop} {data : SelectData}
  {bt : EndedTree ℕ} {S : ℕ → Set ℤ} {nTokens : ℕ → ℕ} {W : (ℕ → ℤ) → ℕ → Prop}

/-- What the loop has to say of the windows: they depend on the places of the items, and are what
`matched` decides. -/
structure Judges (query : SelectQuery) (reps : List ℕ) (V : SelectData → (ℕ → Set ℤ) → Prop)
    (nTokens : ℕ → ℕ) (W : (ℕ → ℤ) → ℕ → Prop) : Prop where
  ofPhrases : query.mode.ofPhrases = true
  nTokensAt : ∀ {data S}, V data S → ∀ i ∈ reps, data.nTokensAt i = nTokens i
  congr : ∀ {c c' : ℕ → ℤ} {a}, a ∈ reps → (∀ i ∈ reps, c i = c' i) → W c a → W c' a
  matched : ∀ {data bt S}, Scan reps V data bt S → ∀ a ∈ reps, ∀ b ∈ reps,
    (∀ i ∈ reps, data.posAt a ≤ data.posAt i ∧ data.posAt i ≤ data.posAt b) →
      (data.matched bt b (data.interval a b) = true ↔ W data.posAt a)

/-- **What the loop finds.** A window that is counted is one, and one that is reached is counted.
Where all items have the same number of tokens only such windows are. -/
theorem nearLoop_phrases (hm : Moving ii query d ls₀ next₀ fuel reps V) (hnodup : reps.Nodup)
    (hne : reps ≠ []) (hj : Judges query reps V nTokens W) (h : Scan reps V data bt S)
    (hk : nPlaces reps S < k) :
    ∃ data', SelectData.nearLoop ii fuel k bt data = some (some data') ∧
      Rests ii query d ls₀ next₀ data' ∧ data.nOccurrences ≤ data'.nOccurrences ∧
      (data.nOccurrences = 0 →
        (data'.nOccurrences ≠ 0 → Chosen reps S W) ∧
        (Reached reps S nTokens W → data'.nOccurrences ≠ 0) ∧
        ((∀ i ∈ reps, ∀ j ∈ reps, nTokens i = nTokens j) →
          (∀ c, ∀ a ∈ reps, ∀ b ∈ reps, c a = c b → W c a → W c b) →
            data'.nOccurrences ≠ 0 → Reached reps S nTokens W)) := by
  induction k generalizing data bt S with
  | zero => omega
  | succ k ih =>
    have hmode : ∀ {data S}, V data S → data.mode.ofPhrases = true := fun hv =>
      (congrArg (fun q => q.mode.ofPhrases) (hm.query_eq hv)).trans hj.ofPhrases
    obtain ⟨a, b, ha, hb, hends, data', pos, hpos, hocc, hturn⟩ := h.turn hm hnodup hne k
    have hmatched := hj.matched h a ha b hb hends
    have hleast := hm.least h.view
    have hfirst : ∀ i ∈ reps, data.posAt a ≤ data.posAt i := fun i hi => (hends i hi).1
    have hlt := nPlaces_lt ha (hm.finite h.view a ha) (hleast a ha).1
      (hpos ▸ SelectData.posAt_lt_aim (hends b hb).1)
    by_cases hmat : data.matched bt b (data.interval a b) = true
    · -- a window: the positions of the items are one
      rw [if_pos hmat] at hocc
      have hW := hmatched.1 hmat
      have hchosen : Chosen reps S W :=
        ⟨data.posAt, fun i hi => (hleast i hi).1, a, ha, hfirst, hW⟩
      have hall : ∀ data'' : SelectData, data'.nOccurrences ≤ data''.nOccurrences →
          (data''.nOccurrences ≠ 0 → Chosen reps S W) ∧
          (Reached reps S nTokens W → data''.nOccurrences ≠ 0) ∧
          ((∀ i ∈ reps, ∀ j ∈ reps, nTokens i = nTokens j) →
            (∀ c, ∀ a ∈ reps, ∀ b ∈ reps, c a = c b → W c a → W c b) →
              data''.nOccurrences ≠ 0 → Reached reps S nTokens W) := by
        refine fun data'' hle => ⟨fun _ => hchosen, fun _ => by omega, fun _ hsame _ => ?_⟩
        refine reached_least hleast hfirst fun b hb hle' => ?_
        exact hsame _ a ha b hb (le_antisymm (hfirst b hb) (hle' a ha)) hW
      rcases hturn with ⟨hrun, -, hrests⟩ | ⟨hscan, -, c, -, -, hrun⟩
      · exact ⟨data', hrun, hrests, by omega, fun _ => hall data' le_rfl⟩
      · split_ifs at hrun
        · exact ⟨data', hrun, hm.rests hscan.view, by omega, fun _ => hall data' le_rfl⟩
        · obtain ⟨data'', hrun', hrests, hle, -⟩ := ih hscan (by omega)
          exact ⟨data'', hrun.trans hrun', hrests, by omega, fun _ => hall data'' hle⟩
    · -- no window: the first item goes on to its next place
      rw [if_neg hmat] at hocc
      have hno : ¬ W data.posAt a := mt hmatched.2 hmat
      have hpos' : pos = data.posAt a + 1 := by
        rw [hpos, SelectData.aim, if_pos (hmode h.view), if_neg hmat]
      subst hpos'
      have hbehind := fun hr : Reached reps S nTokens W =>
        hr.behind hleast ha hfirst (fun c hc => hj.congr ha hc) hno
      rcases hturn with ⟨hrun, hlow, hrests⟩ | ⟨hscan, hframe, c, hc, hcle, hrun⟩
      · refine ⟨data', hrun, hrests, by omega, fun hzero => ⟨by omega, fun hr => ?_, by omega⟩⟩
        obtain ⟨⟨q, hq, hqa⟩, -⟩ := hbehind hr
        exact absurd (hlow q hq) (by omega)
      · have hmoved : data.posAt a < data'.posAt a := by
          have := (hm.least hscan.view a ha).1
          rw [Function.update_self] at this
          exact Int.add_one_le_iff.1 this.2
        have hT : ∀ i ∈ reps, data'.nTokensAt i = nTokens i := hj.nTokensAt hscan.view
        have hTa : data.nTokensAt a = nTokens a := hj.nTokensAt h.view a ha
        rw [hT c hc, hTa] at hrun
        split_ifs at hrun with hbreak
        · -- two items at one place
          obtain ⟨-, hcpos, hcT⟩ := hbreak
          have hca : c ≠ a := by
            rintro rfl
            omega
          refine ⟨data', hrun, hm.rests hscan.view, by omega, fun hzero =>
            ⟨by omega, fun hr => ?_, by omega⟩⟩
          obtain ⟨-, hties, -⟩ := hbehind hr
          exact absurd hcT (hties c hc hca (by rw [← hframe c hc hca, hcpos]))
        · obtain ⟨data'', hrun', hrests, hle, hrest⟩ := ih hscan (by omega)
          refine ⟨data'', hrun.trans hrun', hrests, by omega, fun hzero => ?_⟩
          obtain ⟨h1, h2, h3⟩ := hrest (by omega)
          refine ⟨fun hn => (h1 hn).of_update, fun hr => h2 (hbehind hr).2.2,
            fun hT' hsame hn => ?_⟩
          refine (h3 hT' hsame hn).of_behind hleast ha hfirst fun j hj' hne' heq => hbreak ?_
          -- the least place is that of `j` still
          have hcj := hcle j hj'
          rw [hframe j hj' hne', heq] at hcj
          refine ⟨hmode hscan.view, le_antisymm hcj ?_, hT' c hc a ha⟩
          by_cases hca : c = a
          · subst hca
            exact hmoved.le
          · rw [hframe c hc hca]
            exact hfirst c hc

end Loop

/-! ## Phrases as items -/

section Phrases

variable {ii : Layout} {query : SelectQuery} {d : Docid} {ls₀ ls : List Line} {next₀ : Docid}
  {fuel : ℕ} {labels : List TokenLabel} {reps : List ℕ} {data : SelectData} {S : ℕ → Set ℤ}
  {f i j : ℕ}

/-- The phrase that a token belongs to. -/
def phraseOf (labels : List TokenLabel) (i : ℕ) : ℕ :=
  (labels[i]?.map fun l => l.phraseId).getD 0

/-- The tokens of a phrase. -/
def phraseTokens (labels : List TokenLabel) (f : ℕ) : Finset ℕ :=
  (Finset.range labels.length).filter fun j => phraseOf labels j = f

/-- The phrases of a query have tokens, and each token knows how many. -/
structure IsPhrases (labels : List TokenLabel) (nPhrases : ℕ) : Prop where
  nonempty : ∀ f < nPhrases, (phraseTokens labels f).Nonempty
  lt : ∀ l ∈ labels, l.phraseId < nPhrases
  used : ∀ l ∈ labels, l.nUsedTokensInPhrase = (phraseTokens labels l.phraseId).card

/-- Where a phrase begins. -/
def starts (labels : List TokenLabel) (d : Docid) (ls : List Line) (f : ℕ) : Set ℤ :=
  {p | 0 ≤ p ∧ PhraseAt (phraseTokens labels f) d ls p}

theorem mem_phraseTokens : j ∈ phraseTokens labels f ↔ j < labels.length ∧ phraseOf labels j = f := by
  rw [phraseTokens, Finset.mem_filter, Finset.mem_range]

theorem phraseOf_line (hlabels : ls₀.map Line.label = labels) {x : Line} (hx : ls₀[i]? = some x) :
    phraseOf labels i = x.label.phraseId := by
  rw [phraseOf, ← hlabels, List.getElem?_map, hx]
  rfl

theorem IsPhrases.isPhrase {nPhrases : ℕ} (h : IsPhrases labels nPhrases)
    (hlabels : ls₀.map Line.label = labels) (hf : f < nPhrases) :
    IsPhrase ls₀ f (phraseTokens labels f) where
  nonempty := h.nonempty f hf
  mem j := by
    rw [mem_phraseTokens, ← hlabels, List.length_map, hlabels]
    constructor
    · rintro ⟨hlt, hph⟩
      have hx := List.getElem?_eq_getElem hlt
      exact ⟨_, hx, (phraseOf_line hlabels hx).symm.trans hph⟩
    · rintro ⟨x, hx, hph⟩
      exact ⟨(List.getElem?_eq_some_iff.1 hx).1, (phraseOf_line hlabels hx).trans hph⟩
  used j hj x hx := by
    have hmem : x.label ∈ labels := hlabels ▸ List.mem_map.2 ⟨x, List.mem_of_getElem? hx, rfl⟩
    rw [h.used _ hmem, ← phraseOf_line hlabels hx, (mem_phraseTokens.1 hj).2]

/-- Each phrase is an item, for which one of its tokens stands. -/
structure PhraseView (ii : Layout) (query : SelectQuery) (labels : List TokenLabel) (d : Docid)
    (ls₀ : List Line) (next₀ : Docid) (reps : List ℕ) (data : SelectData) (S : ℕ → Set ℤ) :
    Prop where
  view : ∃ ls, InRecord ii query d ls₀ next₀ data ls ∧ ∀ i ∈ reps,
    S i = starts labels d ls₀ (phraseOf labels i) ∩ Set.Ici (data.posAt i) ∧
      data.posAt i ∈ starts labels d ls₀ (phraseOf labels i) ∧
      ∀ p, data.posAt i ≤ p → PhraseAt (phraseTokens labels (phraseOf labels i)) d ls₀ p →
        PhraseAt (phraseTokens labels (phraseOf labels i)) d ls p

theorem PhraseAt.of_advanced {keep : Docid → ℤ → Prop} {G : Finset ℕ} {p : ℤ}
    (h : Advanced keep ls₀ ls) (hp : PhraseAt G d ls p) : PhraseAt G d ls₀ p := by
  intro j hj x₀ hx₀
  obtain ⟨hlt, rfl⟩ := List.getElem?_eq_some_iff.1 hx₀
  have hx := List.getElem?_eq_getElem (h.length_eq ▸ hlt)
  obtain ⟨y, hy, hs⟩ := getElem?_of_forall₂ h hx
  cases hx₀.symm.trans hy
  exact hs.occursAt (hp j hj _ hx)

theorem PhraseAt.advanced {keep : Docid → ℤ → Prop} {G : Finset ℕ} {p : ℤ}
    (h : Advanced keep ls₀ ls) (hkeep : keep d p) (hp : PhraseAt G d ls₀ p) :
    PhraseAt G d ls p := by
  intro j hj x hx
  obtain ⟨y, hy, hs⟩ := getElem?_of_forall₂ h hx
  exact hs.kept d p hkeep (hp j hj y hy)

theorem starts_finite (hlabels : ls₀.map Line.label = labels)
    (hne : (phraseTokens labels f).Nonempty) : (starts labels d ls₀ f).Finite := by
  obtain ⟨j, hj⟩ := hne
  have hlt : j < ls₀.length := by
    have := (mem_phraseTokens.1 hj).1
    rwa [← hlabels, List.length_map] at this
  have hx := List.getElem?_eq_getElem hlt
  exact (occursAt_finite ls₀[j] d).subset fun p hp => hp.2 j hj _ hx

theorem posAt_congr {data' : SelectData} (h : data'.tokenInfos[j]? = data.tokenInfos[j]?) :
    data'.posAt j = data.posAt j := by
  rw [SelectData.posAt, SelectData.posAt, h]

/-- A token of one phrase is not of another. -/
theorem notMem_phraseTokens {f' : ℕ} (hj : j ∈ phraseTokens labels f) (hne : f ≠ f') :
    j ∉ phraseTokens labels f' := fun hj' =>
  hne ((mem_phraseTokens.1 hj).2.symm.trans (mem_phraseTokens.1 hj').2)

/-- There is fuel for a phrase behind the beginning. -/
theorem Fits.findPhrase (h : Fits fuel ls₀) : ∃ B : ℤ, (∀ x ∈ ls₀, ∀ o ∈ x.occs, x.rel o < B) ∧
    ∀ pos : ℤ, 0 ≤ pos → (B - pos).toNat * (ls₀.length + 1) + ls₀.length < fuel := by
  obtain ⟨B, hB, hfuel⟩ := h.places
  refine ⟨B, hB, fun pos hpos => lt_of_le_of_lt ?_ hfuel⟩
  have hle : (B - pos).toNat ≤ B.toNat := by omega
  calc (B - pos).toNat * (ls₀.length + 1) + ls₀.length
      ≤ B.toNat * (ls₀.length + 2) + 2 * (ls₀.length + 2) :=
        Nat.add_le_add (Nat.mul_le_mul hle (Nat.le_succ _)) (by omega)
    _ = (B.toNat + 2) * (ls₀.length + 2) := (Nat.add_mul _ _ _).symm

/-- Phrases are moved on by `find_phrase`. -/
theorem moving_phrases {nPhrases : ℕ} (hmode : query.mode.ofPhrases = true) (hfrom : From d ls₀)
    (hfits : Fits fuel ls₀) (hlabels : ls₀.map Line.label = labels)
    (hphrases : IsPhrases labels nPhrases)
    (hreps : ∀ i ∈ reps, i ∈ phraseTokens labels (phraseOf labels i) ∧
      phraseOf labels i < nPhrases)
    (hinj : ∀ i ∈ reps, ∀ j ∈ reps, phraseOf labels i = phraseOf labels j → i = j) :
    Moving ii query d ls₀ next₀ fuel reps
      (PhraseView ii query labels d ls₀ next₀ reps) where
  query_eq h := by
    obtain ⟨ls, hrec, -⟩ := h.view
    exact hrec.query
  frame i n h := by
    obtain ⟨ls, hrec, hitems⟩ := h.view
    exact ⟨ls, { hrec with }, hitems⟩
  rests h := by
    obtain ⟨ls, hrec, -⟩ := h.view
    exact hrec.rests
  least h i hi := by
    obtain ⟨ls, hrec, hitems⟩ := h.view
    obtain ⟨hS, hpos, -⟩ := hitems i hi
    rw [hS]
    exact ⟨⟨hpos, Set.mem_Ici.2 le_rfl⟩, fun p hp => hp.2⟩
  finite h i hi := by
    obtain ⟨ls, hrec, hitems⟩ := h.view
    rw [(hitems i hi).1]
    exact (starts_finite hlabels (hphrases.nonempty _ (hreps i hi).2)).inter_of_left _
  move {data S} i pos h hcur hi hlt := by
    obtain ⟨ls, hrec, hitems⟩ := h.view
    obtain ⟨hS, hstart, hkept⟩ := hitems i hi
    obtain ⟨hmem, hf⟩ := hreps i hi
    obtain ⟨B, hB, hfuel⟩ := hfits.findPhrase
    have hid : data.phraseIdAt i = phraseOf labels i := by
      obtain ⟨x, hx, hph⟩ := ((hphrases.isPhrase hlabels hf).mem i).1 hmem
      rw [hrec.phraseIdAt hx, hph]
    have hpos : data.posAt i ≤ pos := hlt.le
    obtain ⟨data', ok, hrun, hocc, hfound⟩ := findPhrase_spec hfrom hfits.length hB
      (hphrases.isPhrase hlabels hf) hrec pos (hfuel pos (hstart.1.trans hpos))
    refine ⟨data', ok, ?_, hocc, ?_⟩
    · rw [SelectData.move, hrec.query, if_pos hmode, hid]
      exact hrun
    cases hfound with
    | ended hrests hnone =>
      refine .inl ⟨rfl, fun p hp => ?_, hrests⟩
      rw [hS] at hp
      exact not_le.1 fun hge => hnone p hge (hkept p hp.2 hp.1.2)
    | found ls' p hrec' hcur' hstart' hat hleast hadv hother =>
      have hframe : ∀ j ∈ reps, j ≠ i → data'.posAt j = data.posAt j := fun j hj hne =>
        posAt_congr (hother j (notMem_phraseTokens (hreps j hj).1 fun heq =>
          hne (hinj j hj i hi heq))).1
      refine .inr ⟨rfl, ⟨ls', hrec', fun j hj => ?_⟩, hframe⟩
      obtain ⟨hge, hp⟩ := hleast.1
      by_cases hji : j = i
      · subst hji
        rw [Function.update_self, hS, hat j hmem]
        refine ⟨?_, ⟨hstart.1.trans (hpos.trans hge), hp.of_advanced hrec.advanced⟩,
          fun q hq hph => (hkept q (hpos.trans (hge.trans hq)) hph).advanced hadv fun _ => hq⟩
        ext q
        constructor
        · rintro ⟨⟨hq, hle⟩, hposq⟩
          exact ⟨hq, hleast.2 ⟨hposq, hkept q hle hq.2⟩⟩
        · rintro ⟨hq, hle⟩
          exact ⟨⟨hq, hpos.trans (hge.trans hle)⟩, hge.trans hle⟩
      · obtain ⟨hSj, hstartj, hkeptj⟩ := hitems j hj
        rw [Function.update_of_ne hji, hframe j hj hji]
        refine ⟨hSj, hstartj, fun q hq hph k hk x hx => hkeptj q hq hph k hk x ?_⟩
        rw [← (hother k (notMem_phraseTokens hk fun heq => hji (hinj j hj i hi heq))).2]
        exact hx

/-- The phrases that were found so far: each stands at its first place. -/
structure Pushed (ii : Layout) (query : SelectQuery) (labels : List TokenLabel) (d : Docid)
    (ls₀ : List Line) (next₀ : Docid) (done reps : List ℕ) (bt : EndedTree ℕ) (data : SelectData)
    (ls : List Line) : Prop where
  inRecord : InRecord ii query d ls₀ next₀ data ls
  pos : data.pos = 0
  ok : EndedTree.Ok data.posAt bt
  perm : bt.items.Perm reps
  phrases : reps.map (phraseOf labels) = done
  mem : ∀ i ∈ reps, i ∈ phraseTokens labels (phraseOf labels i)
  least : ∀ i ∈ reps, IsLeast (starts labels d ls₀ (phraseOf labels i)) (data.posAt i)
  kept : ∀ i ∈ reps, ∀ p, data.posAt i ≤ p →
    PhraseAt (phraseTokens labels (phraseOf labels i)) d ls₀ p →
      PhraseAt (phraseTokens labels (phraseOf labels i)) d ls p
  other : ∀ f ∉ done, ∀ j ∈ phraseTokens labels f, ls[j]? = ls₀[j]?

/-- **The phrases are pushed.** When one does not begin anywhere there is nothing to look for. -/
theorem pushPhrases_spec {nPhrases : ℕ} {done fs : List ℕ} {bt : EndedTree ℕ}
    (hfrom : From d ls₀) (hfits : Fits fuel ls₀) (hlabels : ls₀.map Line.label = labels)
    (hphrases : IsPhrases labels nPhrases)
    (h : Pushed ii query labels d ls₀ next₀ done reps bt data ls)
    (hfs : ∀ f ∈ fs, f < nPhrases) (hnodup : (done ++ fs).Nodup) :
    ∃ data' r, SelectData.pushPhrases ii fuel fs bt data = some (data', r) ∧
      data'.nOccurrences = data.nOccurrences ∧
      ((r = none ∧ Rests ii query d ls₀ next₀ data' ∧ ∃ f ∈ fs, starts labels d ls₀ f = ∅) ∨
        ∃ bt' reps' ls', r = some bt' ∧
          Pushed ii query labels d ls₀ next₀ (done ++ fs) reps' bt' data' ls') := by
  induction fs generalizing data done reps bt ls with
  | nil =>
    refine ⟨data, some bt, rfl, rfl, .inr ⟨bt, reps, ls, rfl, ?_⟩⟩
    rw [List.append_nil]
    exact h
  | cons f fs ih =>
    have hf : f < nPhrases := hfs f List.mem_cons_self
    have hfdone : f ∉ done := fun hmem =>
      (List.nodup_append.1 hnodup).2.2 f hmem f List.mem_cons_self rfl
    have hsame : ∀ p, PhraseAt (phraseTokens labels f) d ls p ↔
        PhraseAt (phraseTokens labels f) d ls₀ p := fun p =>
      forall₂_congr fun j hj => by rw [h.other f hfdone j hj]
    have hset : ∀ ls', (∀ p, PhraseAt (phraseTokens labels f) d ls' p ↔
        PhraseAt (phraseTokens labels f) d ls₀ p) →
        {p | 0 ≤ p ∧ PhraseAt (phraseTokens labels f) d ls' p} = starts labels d ls₀ f := by
      intro ls' hls'
      ext p
      exact and_congr_right fun _ => hls' p
    obtain ⟨B, hB, hfuel⟩ := hfits.findPhrase
    obtain ⟨data', ok, hrun, hocc, hfound⟩ := findPhrase_spec hfrom hfits.length hB
      (hphrases.isPhrase hlabels hf) h.inRecord data.pos (hfuel data.pos h.pos.ge)
    rw [SelectData.pushPhrases, hrun]
    simp only [Option.bind_eq_bind, Option.bind_some]
    rw [h.pos] at hfound
    cases hfound with
    | ended hrests hnone =>
      refine ⟨data', none, rfl, hocc, .inl ⟨rfl, hrests, f, List.mem_cons_self, ?_⟩⟩
      refine Set.eq_empty_iff_forall_notMem.2 fun p hp => ?_
      exact hnone p hp.1 ((hsame p).2 hp.2)
    | found ls' p hrec' hcur hstart hat hleast hadv hother =>
      rw [hset ls hsame] at hleast
      set c := data'.currentTokenInfo with hc
      have hcf : phraseOf labels c = f := (mem_phraseTokens.1 hcur).2
      -- the phrases that were pushed before stay where they are
      have hne : ∀ i ∈ reps, phraseOf labels i ≠ f := fun i hi heq =>
        hfdone (heq ▸ h.phrases ▸ List.mem_map.2 ⟨i, hi, rfl⟩)
      have hframe : ∀ i ∈ reps, data'.posAt i = data.posAt i := fun i hi =>
        posAt_congr (hother i (notMem_phraseTokens (h.mem i hi) (hne i hi))).1
      obtain ⟨hok, hperm⟩ := (h.ok.congr fun i hi => hframe i (h.perm.subset hi)).push c
      have hmem' : ∀ i ∈ reps ++ [c], i ∈ reps ∨ i = c := fun i hi =>
        (List.mem_append.1 hi).imp_right List.mem_singleton.1
      have hpushed : Pushed ii query labels d ls₀ next₀ (done ++ [f]) (reps ++ [c])
          (bt.push data'.posAt c) data' ls' :=
        { inRecord := hrec'
          pos := hstart.trans h.pos
          ok := hok
          perm := hperm.trans ((h.perm.cons c).trans (List.perm_append_singleton c reps).symm)
          phrases := by rw [List.map_append, h.phrases, List.map_singleton, hcf]
          mem := fun i hi => by
            rcases hmem' i hi with hi | rfl
            · exact h.mem i hi
            · rw [hcf]
              exact hcur
          least := fun i hi => by
            rcases hmem' i hi with hi | rfl
            · rw [hframe i hi]
              exact h.least i hi
            · rw [hcf, hat _ hcur]
              exact hleast
          kept := fun i hi q hq hph => by
            rcases hmem' i hi with hi | rfl
            · rw [hframe i hi] at hq
              intro k hk x hx
              refine h.kept i hi q hq hph k hk x ?_
              rw [← (hother k (notMem_phraseTokens hk (hne i hi))).2]
              exact hx
            · rw [hcf] at hph ⊢
              rw [hat _ hcur] at hq
              exact ((hsame q).2 hph).advanced hadv fun _ => hq
          other := fun g hg j hj => by
            obtain ⟨hg, hgf⟩ := not_or.1 (mt List.mem_append.2 hg)
            rw [List.mem_singleton] at hgf
            exact (hother j (notMem_phraseTokens hj hgf)).2.trans (h.other g hg j hj) }
      obtain ⟨data'', r, hrun', hocc', hor⟩ := ih hpushed
        (fun g hg => hfs g (List.mem_cons_of_mem _ hg)) (by simpa using hnodup)
      refine ⟨data'', r, hrun', hocc'.trans hocc, ?_⟩
      rcases hor with ⟨hr, hrests, g, hg, hempty⟩ | ⟨bt', reps', ls'', hr, hpushed'⟩
      · exact .inl ⟨hr, hrests, g, List.mem_cons_of_mem _ hg, hempty⟩
      · exact .inr ⟨bt', reps', ls'', hr, by simpa using hpushed'⟩

end Phrases

/-! ## Phrase search in a record -/

section Find

variable {ii : Layout} {query : SelectQuery} {labels : List TokenLabel} {nTokens : ℕ → ℕ}
  {W : (ℕ → ℤ) → ℕ → Prop}

/-- Where a phrase begins, by the positions of its tokens. -/
def startsOf (labels : List TokenLabel) (ss : List Spot) (f : ℕ) : Set ℤ :=
  {p | 0 ≤ p ∧ ∀ j ∈ phraseTokens labels f, ∀ s ∈ ss[j]?, p ∈ s.places}

/-- What is counted: a number that is not zero is that of a window, and a window that is reached is
counted. Nothing else is, if all phrases have the same number of tokens. -/
structure PhraseCount (labels : List TokenLabel) (nPhrases : ℕ) (nTokens : ℕ → ℕ)
    (W : (ℕ → ℤ) → ℕ → Prop) (ss : List Spot) (n : ℕ) : Prop where
  sound : n ≠ 0 → Chosen (List.range nPhrases) (startsOf labels ss) W
  found : Reached (List.range nPhrases) (startsOf labels ss) nTokens W → n ≠ 0
  only : (∀ f < nPhrases, ∀ g < nPhrases, nTokens f = nTokens g) →
    (∀ c, ∀ a < nPhrases, ∀ b < nPhrases, c a = c b → W c a → W c b) →
      n ≠ 0 → Reached (List.range nPhrases) (startsOf labels ss) nTokens W

/-- What the mode has to say of the windows. -/
structure Decides (ii : Layout) (query : SelectQuery) (labels : List TokenLabel)
    (nTokens : ℕ → ℕ) (W : (ℕ → ℤ) → ℕ → Prop) : Prop where
  ofPhrases : query.mode.ofPhrases = true
  phrases : IsPhrases labels query.nPhrases
  pos : 0 < query.nPhrases
  nTokens : ∀ l ∈ labels, l.nTokensInPhrase = nTokens l.phraseId
  congr : ∀ {c c' : ℕ → ℤ} {a}, a < query.nPhrases → (∀ f < query.nPhrases, c f = c' f) →
    W c a → W c' a
  matched : ∀ {d ls₀ next₀ reps data bt S}, ls₀.map Line.label = labels →
    reps.map (phraseOf labels) = List.range query.nPhrases →
    (∀ i ∈ reps, i ∈ phraseTokens labels (phraseOf labels i)) →
    Scan reps (PhraseView ii query labels d ls₀ next₀ reps) data bt S →
    ∀ a ∈ reps, ∀ b ∈ reps,
    (∀ i ∈ reps, data.posAt a ≤ data.posAt i ∧ data.posAt i ≤ data.posAt b) →
      (data.matched bt b (data.interval a b) = true ↔
        onItems reps (phraseOf labels) W data.posAt a)

/-- The number of tokens of the phrase of a token. -/
theorem Rests.nTokensAt {d : Docid} {ls₀ : List Line} {next₀ : Docid} {data : SelectData} {i : ℕ}
    (h : Rests ii query d ls₀ next₀ data) (hlabels : ls₀.map Line.label = labels)
    (hn : ∀ l ∈ labels, l.nTokensInPhrase = nTokens l.phraseId)
    (hi : i ∈ phraseTokens labels (phraseOf labels i)) :
    data.nTokensAt i = nTokens (phraseOf labels i) := by
  have hlt := (mem_phraseTokens.1 hi).1
  rw [← hlabels, List.length_map] at hlt
  have hx := List.getElem?_eq_getElem hlt
  obtain ⟨ti, hti, hlabel⟩ := h.token hx
  rw [phraseOf_line hlabels hx, SelectData.nTokensAt, hti,
    ← hn _ (hlabels ▸ List.mem_map.2 ⟨_, List.mem_of_getElem? hx, rfl⟩)]
  exact congrArg TokenLabel.nTokensInPhrase hlabel

theorem starts_eq {d : Docid} {ls₀ : List Line} (f : ℕ) :
    starts labels d ls₀ f = startsOf labels (ls₀.map (spot d)) f := by
  ext p
  refine and_congr_right fun _ => forall₂_congr fun j _ => ?_
  rw [List.getElem?_map]
  cases ls₀[j]? with
  | none => simp
  | some x => simp [spot]

/-- A phrase does not begin more often than one of its tokens occurs. -/
theorem ncard_starts_le {d : Docid} {ls₀ : List Line} {i : ℕ} {x : Line}
    (hlabels : ls₀.map Line.label = labels) (hx : ls₀[i]? = some x) :
    (starts labels d ls₀ (phraseOf labels i)).ncard ≤ x.occs.length := by
  have hmem : i ∈ phraseTokens labels (phraseOf labels i) := by
    refine mem_phraseTokens.2 ⟨?_, rfl⟩
    rw [← hlabels, List.length_map]
    exact (List.getElem?_eq_some_iff.1 hx).1
  refine (Set.ncard_le_ncard ?_ (occursAt_finite x d)).trans (ncard_occursAt_le x d)
  exact fun p hp => hp.2 i hmem x hx

/-- **`find` counts windows of phrases.** -/
theorem finds_phrases (hd : Decides ii query labels nTokens W) :
    Finds ii query labels (PhraseCount labels query.nPhrases nTokens W) 0 := by
  intro e data x ls fuel he hat hfits
  obtain rfl : e = 0 := Nat.le_zero.1 he
  have hmode : data.mode.ofPhrases = true :=
    (congrArg (fun q => q.mode.ofPhrases) hat.query).trans hd.ofPhrases
  have hexact : data.mode ≠ .exact := by
    intro heq
    rw [heq] at hmode
    cases hmode
  set data₀ : SelectData := { data with startPos := 0, endPos := 0, nOccurrences := 0, pos := 0 }
    with hdata₀
  have hrec : InRecord ii query data.docid (x :: ls) data.next data₀ (x :: ls) :=
    ⟨hat.query, hat.tracks, .refl _, rfl, rfl⟩
  have hpushed : Pushed ii query labels data.docid (x :: ls) data.next [] [] .empty data₀
      (x :: ls) :=
    { inRecord := hrec, pos := rfl, ok := EndedTree.ok_empty, perm := .nil, phrases := rfl
      mem := nofun, least := nofun, kept := nofun, other := fun _ _ _ _ => rfl }
  obtain ⟨data₁, r, hpush, hocc, hor⟩ := pushPhrases_spec hat.low hfits hat.labels hd.phrases
    hpushed (fun f hf => List.mem_range.1 hf) (by rw [List.nil_append]; exact List.nodup_range)
  have hstarts : startsOf labels (spots 0 data.docid (x :: ls)) =
      starts labels data.docid (x :: ls) := by
    rw [spots_zero]
    exact (funext starts_eq).symm
  have hnphrases : data₀.nPhrases = query.nPhrases := congrArg SelectQuery.nPhrases hat.query
  -- what `find` does is what `findNear` does
  have hfind : ∀ r, SelectData.findNear ii fuel data₀ = some (some r) →
      data.find ii fuel = some (some r) := by
    intro r hr
    rw [SelectData.find]
    dsimp only
    rw [if_neg hexact]
    exact hr
  rcases hor with ⟨rfl, hrests, f, hf, hempty⟩ | ⟨bt, reps, ls₁, rfl, hp⟩
  · have hcount : PhraseCount labels query.nPhrases nTokens W (spots 0 data.docid (x :: ls))
        data₁.nOccurrences := by
      have hzero : data₁.nOccurrences = 0 := hocc
      rw [hzero]
      refine ⟨fun h => absurd rfl h, fun hr => ?_, fun _ _ h => absurd rfl h⟩
      obtain ⟨m, c, hc, -⟩ := hr
      have hmem := (hc f hf).1.1
      rw [hstarts, hempty] at hmem
      exact absurd hmem (Set.notMem_empty _)
    obtain ⟨ls', hc⟩ : ∃ ls', Counted ii _ 0 data data₁ (x :: ls) ls' :=
      Rests.counted (hat.query ▸ hrests) hcount
    refine ⟨data₁, ls', hfind _ ?_, hc⟩
    rw [SelectData.findNear, if_pos hmode, hnphrases, hpush]
    rfl
  · rw [List.nil_append] at hp
    have hphrases := hp.phrases
    have hnames : ∀ i ∈ reps, phraseOf labels i < query.nPhrases := fun i hi =>
      (named_name hphrases hi).1
    have hnodup : reps.Nodup := by
      refine List.Nodup.of_map (phraseOf labels) ?_
      rw [hphrases]
      exact List.nodup_range
    have hne : reps ≠ [] := by
      rintro rfl
      have := hd.pos
      rw [List.map_nil, eq_comm, List.range_eq_nil] at hphrases
      omega
    set S : ℕ → Set ℤ := fun i => starts labels data.docid (x :: ls) (phraseOf labels i) with hS
    have hview : PhraseView ii query labels data.docid (x :: ls) data.next reps data₁ S := by
      refine ⟨ls₁, hp.inRecord, fun i hi => ⟨?_, (hp.least i hi).1, hp.kept i hi⟩⟩
      exact (Set.inter_eq_left.2 fun q hq => (hp.least i hi).2 hq).symm
    have hscan : Scan reps (PhraseView ii query labels data.docid (x :: ls) data.next reps) data₁
        bt S := ⟨hview, hp.ok, hp.perm⟩
    have hmoving := @moving_phrases ii query data.docid (x :: ls) data.next fuel labels reps
      query.nPhrases hd.ofPhrases hat.low hfits hat.labels hd.phrases
      (fun i hi => ⟨hp.mem i hi, hnames i hi⟩) fun i hi j hj => name_injective hphrases hi hj
    have hjudges : Judges query reps
        (PhraseView ii query labels data.docid (x :: ls) data.next reps)
        (fun i => nTokens (phraseOf labels i)) (onItems reps (phraseOf labels) W) :=
      { ofPhrases := hd.ofPhrases
        nTokensAt := fun hv i hi =>
          (hmoving.rests hv).nTokensAt hat.labels hd.nTokens (hp.mem i hi)
        congr := fun ha hcc => hd.congr (hnames _ ha) fun f hf =>
          hcc _ (name_named hphrases hf).1
        matched := fun hs => hd.matched hat.labels hphrases hp.mem hs }
    have hk : nPlaces reps S < fuel := by
      refine lt_of_le_of_lt (nPlaces_le hnodup (fun i hi => ?_) fun i y hy => ?_) hfits.sum
      · have := (mem_phraseTokens.1 (hp.mem i hi)).1
        rw [← hat.labels, List.length_map] at this
        exact List.mem_range.2 this
      · exact (ncard_starts_le hat.labels hy).trans (Nat.le_succ _)
    obtain ⟨data₂, hrun, hrests, -, hrest⟩ :=
      nearLoop_phrases hmoving hnodup hne hjudges hscan hk
    obtain ⟨hsound, hfound, honly⟩ := hrest hocc
    have hcount : PhraseCount labels query.nPhrases nTokens W (spots 0 data.docid (x :: ls))
        data₂.nOccurrences := by
      refine ⟨fun hn => ?_, fun hr => ?_, fun hT hsame hn => ?_⟩
      · rw [hstarts]
        exact (hsound hn).of_items hphrases
      · rw [hstarts] at hr
        exact hfound (hr.on_items hphrases hd.congr)
      · rw [hstarts]
        refine Reached.of_items hphrases (honly (fun i hi j hj => ?_) ?_ hn)
        · exact hT _ (hnames i hi) _ (hnames j hj)
        · intro c a ha b hb heq
          refine hsame _ _ (hnames a ha) _ (hnames b hb) ?_
          simp only [(named_name hphrases ha).2, (named_name hphrases hb).2]
          exact heq
    obtain ⟨ls', hc⟩ : ∃ ls', Counted ii _ 0 data data₂ (x :: ls) ls' :=
      Rests.counted (hat.query ▸ hrests) hcount
    refine ⟨data₂, ls', hfind _ ?_, hc⟩
    rw [SelectData.findNear, if_pos hmode, hnphrases, hpush]
    exact hrun

end Find

end Groonga.Ii
