import Groonga.Ii.RecordSearch
import Groonga.Ii.Skipping
import Mathlib

/-!
# Phrase search

The select cursor returns the records and sections in which the tokens of a phrase follow one
another, with the number of places where they do. What the leapfrog in a record leaves out is out
for a reason: some token does not occur there.
-/

namespace Groonga.Ii

open Line

variable {ii : Layout} {skips : Prop}

/-! ## Finding the matches in a record and section -/

section Find

variable {d : Docid} {ls₀ ls : List Line} {data : SelectData} {b : ℤ}

/-- The matches in front of a position. -/
def found (ls : List Line) (d : Docid) (b : ℤ) : Set ℕ := {p | (p : ℤ) < b ∧ Matches ls d p}

/-- All of them: their number is what the select cursor returns as `tf`. -/
def matchesIn (ls : List Line) (d : Docid) : Set ℕ := {p | Matches ls d p}

theorem found_finite : (found ls d b).Finite := by
  refine (Set.finite_Iio b.toNat).subset fun p hp => ?_
  have := hp.1
  simp only [Set.mem_Iio]
  omega

/-- A position with a match is passed. -/
theorem found_match (hb : 0 ≤ b) (hm : Matches ls d b) :
    (found ls d (b + 1)).ncard = (found ls d b).ncard + 1 := by
  have hinsert : found ls d (b + 1) = insert b.toNat (found ls d b) := by
    ext p
    simp only [found, Set.mem_ofPred_eq, Set.mem_insert_iff]
    constructor
    · rintro ⟨hlt, hp⟩
      by_cases heq : p = b.toNat
      · exact .inl heq
      · exact .inr ⟨by omega, hp⟩
    · rintro (rfl | ⟨hlt, hp⟩)
      · have hcast : ((b.toNat : ℕ) : ℤ) = b := Int.toNat_of_nonneg hb
        rw [hcast]
        exact ⟨by omega, hm⟩
      · exact ⟨by omega, hp⟩
  rw [hinsert, Set.ncard_insert_of_notMem _ found_finite]
  rintro ⟨hlt, -⟩
  omega

/-- Positions without a match are passed. -/
theorem found_jump {b' : ℤ} (hle : b ≤ b') (hm : ∀ p : ℤ, b ≤ p → p < b' → ¬ Matches ls d p) :
    found ls d b' = found ls d b := by
  ext p
  constructor
  · rintro ⟨hlt, hp⟩
    refine ⟨?_, hp⟩
    by_contra hge
    exact hm p (by omega) hlt hp
  · rintro ⟨hlt, hp⟩
    exact ⟨by omega, hp⟩

theorem matchesIn_eq_found (hm : ∀ p : ℤ, b ≤ p → ¬ Matches ls d p) :
    matchesIn ls d = found ls d b := by
  ext p
  constructor
  · intro hp
    refine ⟨?_, hp⟩
    by_contra hge
    exact hm p (by omega) hp
  · exact And.right

/-- What the loop of `find` keeps: the matches in front of `data.pos` are counted, and the lines
`ls` still have all places from there on. -/
structure Finding (ii : Layout) (skips : Prop) (d : Docid) (ls₀ : List Line) (data : SelectData)
    (ls : List Line) : Prop where
  tracks : List.Forall₂ (Tracks ii skips) data.tokenInfos ls
  docid : data.docid = d
  advanced : Advanced (fun d' p => d' = d → data.pos ≤ p) ls₀ ls
  low : From d ls
  pos_nonneg : 0 ≤ data.pos
  counted : data.nOccurrences = (found ls₀ d data.pos).ncard

/-- The last `count` tokens before the index `i`, around, are at the position. -/
def Visited (ls : List Line) (d : Docid) (pos : ℤ) (i count : ℕ) : Prop :=
  ∀ j x, ls[j]? = some x → (i ≤ j + count ∧ j < i) ∨ ls.length + i ≤ j + count → x.IsAt d pos

/-- How `find` ends. -/
structure Found (ii : Layout) (skips : Prop) (d : Docid) (ls₀ : List Line) (data data' : SelectData)
    (ls : List Line) : Prop where
  tracks : List.Forall₂ (Tracks ii skips) data'.tokenInfos ls
  docid : data'.docid = d
  advanced : Advanced (fun d' _ => d < d') ls₀ ls
  counted : data'.nOccurrences = (matchesIn ls₀ d).ncard
  next : data'.next = data.next ∨
    (d < data'.next ∧ ∀ d', d < d' → d' < data'.next → ¬ Meets ls₀ d')
  query : data'.toSelectQuery = data.toSelectQuery

theorem visited_all {pos : ℤ} {i : ℕ} (hi : i ≤ ls.length) (h : Visited ls d pos i ls.length) :
    Matches ls d pos := by
  intro x hx
  obtain ⟨j, hj⟩ := List.getElem?_of_mem hx
  obtain ⟨hlt, -⟩ := List.getElem?_eq_some_iff.1 hj
  refine (h j x hj ?_).occursAt
  omega

/-- One more token is at the position. -/
theorem visited_step {pos : ℤ} {i count : ℕ} {x' : Line} (hi : i < ls.length)
    (h : Visited ls d pos i count) (hat : x'.IsAt d pos) :
    Visited (ls.set i x') d pos (i + 1) (count + 1) := by
  intro j x hj hor
  rw [List.length_set] at hor
  by_cases hij : i = j
  · subst hij
    rw [List.getElem?_set_self hi] at hj
    cases hj
    exact hat
  · rw [List.getElem?_set_ne hij] at hj
    exact h j x hj (by omega)

theorem visited_one {pos : ℤ} {i : ℕ} {x' : Line} (hi : i < ls.length) (hat : x'.IsAt d pos) :
    Visited (ls.set i x') d pos (i + 1) 1 := by
  intro j x hj hor
  rw [List.length_set] at hor
  have hij : i = j := by
    obtain ⟨hlt, -⟩ := List.getElem?_eq_some_iff.1 hj
    rw [List.length_set] at hlt
    omega
  subst hij
  rw [List.getElem?_set_self hi] at hj
  cases hj
  exact hat

theorem visited_zero {pos : ℤ} {i : ℕ} : Visited ls d pos i 0 := by
  intro j x hj hor
  obtain ⟨hlt, -⟩ := List.getElem?_eq_some_iff.1 hj
  omega

/-- No match is left when a token has left the record. -/
theorem Finding.found_of_none {i : ℕ} {x x' : Line} {data' : SelectData}
    (h : Finding ii skips d ls₀ data ls) (hi : ls[i]? = some x)
    (hshort : Shortened (fun d' p => d' = d → data.pos ≤ p) x x')
    (hnone : ∀ p, ¬ x'.OccursAt d p)
    (htracks : List.Forall₂ (Tracks ii skips) data'.tokenInfos (ls.set i x'))
    (hdocid : data'.docid = d) (hocc : data'.nOccurrences = data.nOccurrences)
    (hquery : data'.toSelectQuery = data.toSelectQuery)
    (hnext : data'.next = data.next ∨
      (d < data'.next ∧ ∀ d' p, d < d' → d' < data'.next → ¬ x'.OccursAt d' p)) :
    Found ii skips d ls₀ data data' (ls.set i x') := by
  have hadv : Advanced (fun d' p => d' = d → data.pos ≤ p) ls₀ (ls.set i x') :=
    h.advanced.trans (.set hi hshort)
  have hmem : x' ∈ ls.set i x' :=
    List.mem_of_getElem? (List.getElem?_set_self (List.getElem?_eq_some_iff.1 hi).1)
  refine ⟨htracks, hdocid, hadv.mono fun d' p hlt heq => absurd heq hlt.ne', ?_, ?_, hquery⟩
  · rw [hocc, h.counted, matchesIn_eq_found fun p hp hm => ?_]
    exact hnone p ((hadv.matches fun _ => hp).1 hm x' hmem)
  · refine hnext.imp_right fun ⟨hlt, hn⟩ => ⟨hlt, fun d' h1 h2 hm => ?_⟩
    obtain ⟨p, hp⟩ := (hadv.meets fun _ heq => absurd heq h1.ne').2 hm x' hmem
    exact hn d' p h1 h2 hp

/-- Fewer positions are left, so less fuel is needed. -/
theorem fuel_step {a b n k m : ℕ} (hlt : a < b) (h : b * (n + 1) + n < k + m) :
    a * (n + 1) + n + (n + 1) < k + m := by
  have hmul : (a + 1) * (n + 1) ≤ b * (n + 1) := Nat.mul_le_mul_right _ hlt
  rw [Nat.succ_mul] at hmul
  omega

/-- **The loop of `find`** counts all the matches in `d`. -/
theorem findLoop_spec {fuel k i count : ℕ} {B : ℤ} (h : Finding ii skips d ls₀ data ls)
    (hi : i ≤ ls.length) (hcount : count < ls.length) (hvisited : Visited ls d data.pos i count)
    (hlen : ∀ x ∈ ls₀, x.occs.length < fuel) (hB : ∀ x ∈ ls₀, ∀ o ∈ x.occs, x.rel o < B)
    (hk : (B - data.pos).toNat * (ls.length + 1) + ls.length < k + count) :
    ∃ data' ls', SelectData.findLoop ii fuel k i count data = some data' ∧
      Found ii skips d ls₀ data data' ls' := by
  induction k generalizing i count data ls with
  | zero => omega
  | succ k ih =>
    have hlength := h.tracks.length_eq
    set i' := if i = data.tokenInfos.length then 0 else i with hwrap
    have hi' : i' < ls.length := by
      rw [hwrap, hlength]
      split_ifs <;> omega
    -- after the last token comes the first one
    have hvisited' : Visited ls d data.pos i' count := by
      intro j x hj hor
      refine hvisited j x hj ?_
      obtain ⟨hlt, -⟩ := List.getElem?_eq_some_iff.1 hj
      rw [hwrap, hlength] at hor
      split_ifs at hor <;> omega
    obtain ⟨x, hx⟩ : ∃ x, ls[i']? = some x := ⟨_, List.getElem?_eq_getElem hi'⟩
    obtain ⟨ti, hti⟩ : ∃ ti, data.tokenInfos[i']? = some ti :=
      ⟨_, List.getElem?_eq_getElem (by rw [hlength]; exact hi')⟩
    have htrack : Tracks ii skips ti x := by
      obtain ⟨h1, h1'⟩ := List.getElem?_eq_some_iff.1 hti
      obtain ⟨h2, h2'⟩ := List.getElem?_eq_some_iff.1 hx
      have := List.forall₂_iff_get.1 h.tracks |>.2 i' h1 h2
      simp only [List.get_eq_getElem] at this
      rwa [h1', h2'] at this
    have hmem : x ∈ ls := List.mem_of_getElem? hx
    obtain ⟨x₀, hx₀, hshort₀⟩ := h.advanced.exists_left hmem
    have hfuel : x.occs.length < fuel := hshort₀.suffix.length_le.trans_lt (hlen x₀ hx₀)
    obtain ⟨ti', ok, x', hrun, htrack', hshort, hland⟩ :=
      htrack.landed hfuel (h.low x hmem) data.pos
    have htracks' := @tracks_set _ _ _ _ _ _ i' h.tracks htrack'
    have hadv : Advanced (fun d' p => d' = d → data.pos ≤ p) ls₀ (ls.set i' x') :=
      h.advanced.trans (.set hx hshort)
    have hlow : From d (ls.set i' x') := (Advanced.set hx hshort).from_ h.low
    have hset : (ls.set i' x').length = ls.length := List.length_set
    -- what is left to do once the token is at a position in `d`
    have hgo : ∀ data₂ count₂ e, Finding ii skips d ls₀ data₂ (ls.set i' x') →
        Visited (ls.set i' x') d data₂.pos (i' + 1) count₂ → count₂ ≤ ls.length →
        data₂.pos < B → data₂.next = data.next → data₂.toSelectQuery = data.toSelectQuery →
        (B - data₂.pos).toNat * (ls.length + 1) + ls.length < k + count₂ →
        ∃ data' ls', (if count₂ = ls.length then
            SelectData.findLoop ii fuel k (i' + 1) 0
              { data₂ with endPos := e, pos := data₂.pos + 1,
                           nOccurrences := data₂.nOccurrences + 1 }
          else SelectData.findLoop ii fuel k (i' + 1) count₂ data₂) = some data' ∧
          Found ii skips d ls₀ data data' ls' := by
      intro data₂ count₂ e hfind hvis hle hlt hnext hquery hk'
      by_cases hall : count₂ = ls.length
      · rw [if_pos hall]
        have hm : Matches (ls.set i' x') d data₂.pos :=
          visited_all (i := i' + 1) (by rw [hset]; omega) (by rw [hset, ← hall]; exact hvis)
        have hm₀ := (hfind.advanced.matches fun _ => le_rfl).2 hm
        have hfind' : Finding ii skips d ls₀
            { data₂ with endPos := e, pos := data₂.pos + 1,
                         nOccurrences := data₂.nOccurrences + 1 } (ls.set i' x') :=
          { hfind with
            advanced := hfind.advanced.mono fun d' p hp heq => by
              have := hp heq
              dsimp only at this
              omega
            pos_nonneg := by
              have := hfind.pos_nonneg
              dsimp only
              omega
            counted := by rw [found_match hfind.pos_nonneg hm₀, hfind.counted] }
        have hfuel' := @fuel_step (B - (data₂.pos + 1)).toNat _ _ _ _ (by omega) hk'
        obtain ⟨data', ls', hrun', hf⟩ := @ih _ _ (i' + 1) 0 hfind' (by omega) (by omega)
          visited_zero (by rw [hset]; dsimp only; omega)
        exact ⟨data', ls', hrun',
          { hf with next := hnext ▸ hf.next, query := hf.query.trans hquery }⟩
      · rw [if_neg hall]
        obtain ⟨data', ls', hrun', hf⟩ := ih hfind (by omega) (by omega) hvis (by rw [hset]; omega)
        exact ⟨data', ls', hrun',
          { hf with next := hnext ▸ hf.next, query := hf.query.trans hquery }⟩
    rw [SelectData.findLoop]
    simp only [← hwrap, hti, h.docid, hrun, Option.bind_eq_bind, Option.bind_some]
    cases hland with
    | ended hok hnil =>
      subst hok
      refine ⟨_, ls.set i' x', rfl, h.found_of_none hx hshort ?_ htracks' rfl rfl rfl
        (.inl rfl)⟩
      rintro p ⟨o, ho, -⟩
      rw [hnil] at ho
      cases ho
    | behind hok hlt hnone =>
      subst hok
      simp only [Bool.not_true, Bool.false_eq_true, if_false]
      rw [if_pos hlt.ne']
      refine ⟨_, ls.set i' x', rfl, h.found_of_none hx hshort (fun p => hnone d p hlt) htracks'
        rfl rfl rfl (.inr ⟨hlt, fun d' p _ h2 => hnone d' p h2⟩)⟩
    | inside hok hd hle hat =>
      subst hok
      simp only [Bool.not_true, Bool.false_eq_true, if_false]
      rw [if_neg (by rw [hd]; exact not_not.2 rfl)]
      have hlt : ti'.pos < B := by
        obtain ⟨o, os, hhead, -, hrel⟩ := hat
        rw [← hrel, rel, hshort.label, ← rel, rel, hshort₀.label]
        refine hB x₀ hx₀ o (hshort₀.suffix.subset (hshort.suffix.subset ?_))
        rw [hhead]
        exact List.mem_cons_self
      have hlast : (data.tokenInfos.set i' ti').length = ls.length := by
        rw [List.length_set, hlength]
      by_cases heq : ti'.pos = data.pos
      · rw [if_pos heq, hlast]
        rw [heq] at hat hlt
        exact hgo _ _ _
          { tracks := htracks', docid := rfl, advanced := hadv, low := hlow,
            pos_nonneg := h.pos_nonneg, counted := h.counted }
          (visited_step hi' hvisited' hat) (by omega) hlt rfl rfl (by dsimp only; omega)
      · -- no match is at the positions that are jumped over
        rw [if_neg heq, hlast]
        have hnone : ∀ p : ℤ, data.pos ≤ p → p < ti'.pos → ¬ Matches ls₀ d p := by
          intro p hp hp' hm
          refine absurd hp' (not_lt.2 (hat.le htrack'.sorted ((hadv.matches fun _ => hp).1 hm x' ?_)))
          exact List.mem_of_getElem? (List.getElem?_set_self hi')
        have hfuel' := @fuel_step (B - ti'.pos).toNat _ _ _ _ (by omega) hk
        exact hgo _ _ _
          { tracks := htracks', docid := rfl
            advanced := hadv.mono fun d' p hp hd' => hle.trans (hp hd')
            low := hlow
            pos_nonneg := h.pos_nonneg.trans hle
            counted := by rw [found_jump hle hnone]; exact h.counted }
          (visited_one hi' hat) (by omega) hlt rfl rfl (by dsimp only; omega)

end Find

/-! ## The answer -/

section Answer

variable {query : SelectQuery} {labels : List TokenLabel}

/-- The number of positions, none of them negative, at which all the tokens are. -/
def ExactCount (ss : List Spot) (n : ℕ) : Prop :=
  n = {p : ℕ | ∀ s ∈ ss, (p : ℤ) ∈ s.places}.ncard

theorem exactCount_spots {ls : List Line} {d : Docid} {n : ℕ} :
    ExactCount (spots 0 d ls) n ↔ n = (matchesIn ls d).ncard := by
  rw [ExactCount, spots_zero]
  have hset : {p : ℕ | ∀ s ∈ ls.map (spot d), (p : ℤ) ∈ s.places} = matchesIn ls d := by
    ext p
    simp [matchesIn, Matches, spot]
  rw [hset]

/-- `find` counts the places of a phrase. -/
theorem finds_exact (hmode : query.mode = .exact) : Finds ii query labels ExactCount 0 := by
  intro e data x ls fuel he hat hfits
  obtain rfl : e = 0 := Nat.le_zero.1 he
  obtain ⟨B, hB, hfuel⟩ := hfits.places
  have hmode' : data.mode = .exact := (congrArg SelectQuery.mode hat.query).trans hmode
  have hfinding : Finding ii True data.docid (x :: ls)
      { data with startPos := 0, endPos := 0, nOccurrences := 0, pos := 0 } (x :: ls) := {
    tracks := hat.tracks
    docid := rfl
    advanced := Advanced.refl _
    low := hat.low
    pos_nonneg := le_rfl
    counted := by
      have hnil : found (x :: ls) data.docid 0 = ∅ :=
        Set.eq_empty_iff_forall_notMem.2 fun p hp => by
          have := hp.1
          omega
      rw [hnil, Set.ncard_empty] }
  have hle : B.toNat * ((x :: ls).length + 1) + (x :: ls).length < fuel := by
    refine lt_of_le_of_lt ?_ hfuel
    rw [Nat.add_mul]
    exact Nat.add_le_add (Nat.mul_le_mul_left _ (Nat.le_succ _)) (by omega)
  obtain ⟨data', ls', hrun, hf⟩ := findLoop_spec (k := fuel) (i := 0) (B := B) hfinding
    (Nat.zero_le _) (Nat.succ_pos _) visited_zero hfits.length hB (by simpa using hle)
  refine ⟨data', ls', ?_, hf.query, hf.tracks, hf.docid, hf.advanced,
    exactCount_spots.2 hf.counted, hf.next⟩
  rw [SelectData.find]
  dsimp only
  rw [if_pos hmode', hrun]
  rfl

/-- **The exact answer**: in order each record and section with a match once, with the number of
its matches. -/
structure Exact (matched : Docid → Set ℕ) (ps : List SelectPosting) : Prop where
  sorted : ps.Pairwise fun a b => a.docid < b.docid
  found : ∀ d tf, (∃ p ∈ ps, p.docid = d ∧ p.tf = tf) ↔ (matched d).Nonempty ∧ tf = (matched d).ncard

/-- The positions at which the tokens of a phrase occur in a record and section, each at its
offset; a token has the postings of all its terms. -/
def phraseIn (qs : List (QueryToken × List (List Hit))) (d : Docid) : Set ℕ :=
  {p | ∀ q ∈ qs, ∃ h ∈ q.2.flatten, h.docid = d ∧ p + q.1.offset ∈ h.pos}

theorem mem_placesIn {label : TokenLabel} {hs : List Hit} {d : Docid} {p : ℕ} :
    (p : ℤ) ∈ placesIn label hs d ↔ ∃ h ∈ hs, h.docid = d ∧ p + label.offset ∈ h.pos := by
  refine exists_congr fun h => and_congr_right fun _ => and_congr_right fun _ => ?_
  constructor
  · rintro ⟨r, hr, hp⟩
    have heq : p + label.offset = r := by omega
    rwa [heq]
  · intro hp
    exact ⟨_, hp, by omega⟩

theorem phraseIn_eq {qs : List QueryToken} {hsss : List (List (List Hit))} {d : Docid} :
    {p : ℕ | ∀ z ∈ tokensIn false qs hsss, (p : ℤ) ∈ placesIn z.1 z.2 d} =
      phraseIn (qs.zip hsss) d := by
  ext p
  simp only [Set.mem_ofPred_eq, tokensIn, phraseIn, List.zip_map]
  constructor
  · intro h q hq
    exact mem_placesIn.1 (h _ (List.mem_map.2 ⟨q, hq, rfl⟩))
  · intro h z hz
    obtain ⟨q, hq, rfl⟩ := List.mem_map.1 hz
    exact mem_placesIn.2 (h q hq)

theorem phraseIn_finite {q : QueryToken} {hss : List (List Hit)}
    {qs : List (QueryToken × List (List Hit))} {d : Docid} :
    (phraseIn ((q, hss) :: qs) d).Finite := by
  have hfin := (List.finite_toSet (hss.flatten.flatMap Hit.pos)).preimage
    (f := fun p => p + q.offset) fun a _ b _ h => Nat.add_right_cancel h
  refine hfin.subset fun p hp => ?_
  obtain ⟨h, hh, -, hpos⟩ := hp _ List.mem_cons_self
  exact List.mem_flatMap.2 ⟨h, hh, hpos⟩

end Answer

/-! ## Phrases at hand -/

open CursorHeap (splitTerm splitTerm_holds)
open Cursor (splitTerm_skipSafe clippedTerm clippedHits clippedTerm_holds)

/-- A query for a phrase. -/
def SelectQuery.phrase : SelectQuery := ⟨.exact, 0, 0, 0⟩

end Groonga.Ii
