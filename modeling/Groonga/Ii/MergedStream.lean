import Groonga.Ii.TokenInfo

/-!
# The merged stream of a heap

`cursor_heap_min` and `cursor_heap_pop_pos` by turns give the places of all the cursors of a heap
in order. This is the merged stream of the heap. `token_info_skip` and `token_info_skip_pos` leave
out a part at its beginning. `cursor_heap_pop` does less: it goes on with one cursor only, and a
posting that this cursor had at hand is not left out.
-/

namespace Groonga.Ii.CursorHeap

open Groonga.Lib
open StoredCursor (atLeast)
open TokenInfo (skipLoop skipPosLoop)

variable (ii : Layout)

/-! ## Runs -/

/-- What is done with a heap. -/
inductive Move where
  | popPos
  | pop (min : ℕ)
  | skip (d : Docid)
  | skipPos (d : Docid) (pos : ℤ)

def step (fuel : ℕ) (h : List Cursor) : Move → Option (List Cursor)
  | .popPos => popPos ii h
  | .pop min => pop ii min h
  | .skip d => skipLoop ii d fuel h
  | .skipPos d pos => skipPosLoop ii d pos fuel h

def run (fuel : ℕ) (h : List Cursor) (ms : List Move) : Option (List Cursor) :=
  ms.foldlM (step ii fuel) h

/-- **The merged stream of a heap.** -/
structure Merges (h : List Cursor) (os : List Occ) : Prop where
  drain : ∀ fuel, os.length < fuel → drain ii fuel h = some os
  sorted : os.Pairwise (· ≤ ·)

/-- A token info that was moved on: its stream and whether there is a place in it. -/
structure Located (ti : TokenInfo) (os : List Occ) (ti' : TokenInfo) (b : Bool) : Prop where
  merges : Merges ii ti'.cursors os
  found : b = true ↔ os ≠ []
  place : ∀ o ∈ os.head?, ti'.p = o ∧ ti'.pos = (o.pos : ℤ) - ti.offset

/-- **What the operations do to the stream** `os` of a heap. -/
structure Laws (h : List Cursor) (os : List Occ) : Prop where
  merges : Merges ii h os
  pop : ∀ c bins, h = c :: bins → ∀ min, ∃ h' os' own rest waiting,
    pop ii min h = some h' ∧ Merges ii h' os' ∧ Merges ii [c] own ∧
      Popped c.docid min os os' own rest waiting
  skip : ∀ ti : TokenInfo, ti.cursors = h → ∀ d, ∃ n ti' b,
    (∀ fuel, n < fuel → TokenInfo.skip ii fuel ti d = some (ti', b)) ∧
      Located ii ti (os.dropWhile fun o => o.docid < d) ti' b
  skipPos : ∀ ti : TokenInfo, ti.cursors = h → ∀ d pos, ∃ n ti' b,
    (∀ fuel, n < fuel → TokenInfo.skipPos ii fuel ti d pos = some (ti', b)) ∧
      Located ii ti (os.dropWhile fun o => o.docid = d ∧ (o.pos : ℤ) - ti.offset < pos) ti' b

section

variable {ii} {skips : Prop} {h : List Cursor} {n : ℕ} {os : List Occ}

theorem Stream.merges (hs : Stream ii skips h n os) : Merges ii h os := by
  obtain ⟨-, -, -, -, hsorted⟩ := id hs
  exact ⟨fun fuel hfuel => hs.drain hfuel, hsorted⟩

theorem Stream.laws (hs : Stream ii skips h n os) (hskips : skips) : Laws ii h os := by
  refine ⟨hs.merges, ?_, ?_, ?_⟩
  · rintro c bins rfl min
    obtain ⟨h', m, os', own, rest, waiting, k, hrun, -, hs', hown, hpopped⟩ := hs.pop hskips min
    exact ⟨h', os', own, rest, waiting, hrun, hs'.merges, hown.merges, hpopped⟩
  · rintro ti rfl d
    obtain ⟨ti', b, m, hrun, -, hoffset, hf, hb⟩ := TokenInfo.skip_spec hs hskips d
    refine ⟨n, ti', b, hrun, hf.stream.merges, hb, fun o ho => ⟨hf.p o ho, ?_⟩⟩
    rw [hf.pos o ho, hoffset]
  · rintro ti rfl d pos
    obtain ⟨ti', b, m, hrun, -, hoffset, hf, hb⟩ := TokenInfo.skipPos_spec hs d pos
    refine ⟨os.length, ti', b, hrun, hf.stream.merges, hb, fun o ho => ⟨hf.p o ho, ?_⟩⟩
    rw [hf.pos o ho, hoffset]

/-- A move leaves a heap of cursors. -/
theorem Stream.step (hs : Stream ii skips h n os) (hskips : skips) (m : Move) :
    ∃ k h' n' os', (∀ fuel, k < fuel → step ii fuel h m = some h') ∧
      Stream ii skips h' n' os' := by
  cases m with
  | popPos =>
    cases h with
    | nil => exact ⟨0, [], n, os, fun fuel _ => rfl, hs⟩
    | cons c bins =>
      obtain ⟨h', n', os', hrun, -, -, hs'⟩ := hs.popPos
      exact ⟨0, h', n', os', fun fuel _ => hrun, hs'⟩
  | pop min =>
    cases h with
    | nil => exact ⟨0, [], n, os, fun fuel _ => rfl, hs⟩
    | cons c bins =>
      obtain ⟨h', n', os', own, rest, waiting, k, hrun, -, hs', -, -⟩ := hs.pop hskips min
      exact ⟨0, h', n', os', fun fuel _ => hrun, hs'⟩
  | skip d =>
    obtain ⟨h', n', hrun, -, hs'⟩ := TokenInfo.skipLoop_spec hs hskips d
    exact ⟨n, h', n', _, hrun, hs'⟩
  | skipPos d pos =>
    obtain ⟨h', n', hrun, -, hs'⟩ := TokenInfo.skipPosLoop_spec hs d pos
    exact ⟨os.length, h', n', _, hrun, hs'⟩

/-- **So does a run.** -/
theorem Stream.run (hs : Stream ii skips h n os) (hskips : skips) (ms : List Move) :
    ∃ k h' n' os', (∀ fuel, k < fuel → run ii fuel h ms = some h') ∧
      Stream ii skips h' n' os' := by
  induction ms generalizing h n os with
  | nil => exact ⟨0, h, n, os, fun fuel _ => rfl, hs⟩
  | cons m ms ih =>
    obtain ⟨k₁, h₁, n₁, os₁, hrun₁, hs₁⟩ := hs.step hskips m
    obtain ⟨k₂, h₂, n₂, os₂, hrun₂, hs₂⟩ := ih hs₁
    refine ⟨max k₁ k₂, h₂, n₂, os₂, fun fuel hfuel => ?_, hs₂⟩
    have := hrun₂ fuel ((le_max_right _ _).trans_lt hfuel)
    unfold CursorHeap.run at this ⊢
    rw [List.foldlM_cons, hrun₁ fuel ((le_max_left _ _).trans_lt hfuel)]
    exact this

/-- **The cursors of terms**, pushed one after another. -/
theorem pushAll_spec {ts : List Term} {hss : List (List Hit)} {min : ℕ}
    (h : List.Forall₂ (Term.Holds ii) ts hss) (hsafe : skips → ∀ t ∈ ts, t.SkipSafe)
    (hmin : skips ∨ min = 0) :
    ∃ bins n os, pushAll ii ts min = some bins ∧ Stream ii skips bins n os ∧
      os.Perm ((hss.map (atLeast min)).flatten.flatMap occsOf) := by
  -- the cursors that are in the heap already stay in it
  have hfold : ∀ (bins : List Cursor) (xs : List Track), Holds ii skips bins xs →
      ∃ bins' ys, ts.foldlM (fun h t => push ii h t min) bins = some bins' ∧
        Holds ii skips bins' ys ∧ (contents ys).Perm
          ((hss.map (atLeast min)).flatten.flatMap occsOf ++ contents xs) := by
    induction h with
    | nil => exact fun bins xs hh => ⟨bins, xs, rfl, hh, .refl _⟩
    | @cons t hs ts hss ht _ ih =>
      intro bins xs hh
      obtain ⟨bins₁, ys₁, hrun₁, hh₁, hperm₁⟩ :=
        push_spec hh ht (fun h0 => hsafe h0 t List.mem_cons_self) hmin
      obtain ⟨bins₂, ys₂, hrun₂, hh₂, hperm₂⟩ :=
        ih (fun h0 t ht => hsafe h0 t (List.mem_cons_of_mem _ ht)) bins₁ ys₁ hh₁
      refine ⟨bins₂, ys₂, ?_, hh₂, hperm₂.trans ?_⟩
      · rw [List.foldlM_cons, hrun₁]
        exact hrun₂
      · rw [List.map_cons, List.flatten_cons, List.flatMap_append]
        refine (hperm₁.append_left _).trans ?_
        rw [← List.append_assoc]
        exact List.perm_append_comm.append_right _
  obtain ⟨bins, ys, hrun, hh, hperm⟩ := hfold [] [] ⟨Heap.isHeap_nil, .nil⟩
  obtain ⟨os, hs, hos⟩ := stream_of_holds hh
  refine ⟨bins, _, os, hrun, hs, hos.trans ?_⟩
  simpa [contents] using hperm

theorem flatten_atLeast_zero (hss : List (List Hit)) :
    (hss.map (atLeast 0)).flatten = hss.flatten := by
  have hall : ∀ l : List Hit, atLeast 0 l = l := fun l =>
    StoredCursor.atLeast_of_forall fun x _ => Nat.zero_le _
  rw [List.map_congr_left fun l _ => hall l, List.map_id']

/-- **The heap of cursors is a merge** of the places of its terms. Where no chunk seems to end too
early, every run leaves a heap of which this holds again, and whose operations do to the merged
stream what `Laws` says. -/
theorem merge_of_terms {ts : List Term} {hss : List (List Hit)}
    (h : List.Forall₂ (Term.Holds ii) ts hss) :
    (∃ bins os, pushAll ii ts 0 = some bins ∧ os.Perm (hss.flatten.flatMap occsOf) ∧
      Merges ii bins os) ∧
    ((∀ t ∈ ts, t.SkipSafe) → ∀ min, ∃ bins os, pushAll ii ts min = some bins ∧
      os.Perm ((hss.map (atLeast min)).flatten.flatMap occsOf) ∧ Laws ii bins os ∧
      ∀ ms, ∃ k bins' os', (∀ fuel, k < fuel → run ii fuel bins ms = some bins') ∧
        Laws ii bins' os') := by
  constructor
  · obtain ⟨bins, n, os, hrun, hs, hos⟩ :=
      @pushAll_spec ii False ts hss 0 h (fun h0 => h0.elim) (.inr rfl)
    rw [flatten_atLeast_zero] at hos
    exact ⟨bins, os, hrun, hos, hs.merges⟩
  · intro hsafe min
    obtain ⟨bins, n, os, hrun, hs, hos⟩ :=
      @pushAll_spec ii True ts hss min h (fun _ => hsafe) (.inl trivial)
    refine ⟨bins, os, hrun, hos, hs.laws trivial, fun ms => ?_⟩
    obtain ⟨k, bins', n', os', hrun', hs'⟩ := hs.run trivial ms
    exact ⟨k, bins', os', hrun', hs'.laws trivial⟩

end

/-! ## A posting at hand -/

/-- A term with the record 3 in its buffer and the records 5 and 20 in its chunk. -/
def splitTerm : Stored where
  chunks := []
  tail := [⟨5, 0, 0, 0, [7]⟩, ⟨15, 0, 0, 0, [3]⟩]
  recs := fun i => if i = 5 then ⟨⟨3, 1⟩, ⟨1, 0, [4]⟩, 0, 0⟩ else ⟨⟨0, 0⟩, ⟨0, 0, []⟩, 0, 0⟩
  posInBuffer := 5

theorem splitTerm_holds : (Term.stored splitTerm).Holds ⟨true, false, true⟩
    [⟨⟨3, 1⟩, 1, 0, [4]⟩, ⟨⟨5, 1⟩, 1, 0, [7]⟩, ⟨⟨20, 1⟩, 1, 0, [3]⟩] := by
  have hhits : splitTerm.chunkHits ⟨true, false, true⟩ =
      [⟨⟨5, 1⟩, 1, 0, [7]⟩, ⟨⟨20, 1⟩, 1, 0, [3]⟩] := by decide
  have hrec : recHit ⟨true, false, true⟩ (splitTerm.recs 5) = ⟨⟨3, 1⟩, 1, 0, [4]⟩ := by decide
  have hchained : splitTerm.Chained ⟨true, false, true⟩ {5} [5] := {
    skip := {
      chain := ⟨rfl, by decide, rfl⟩
      sorted := List.pairwise_singleton _ _
      live := fun x => by
        simp only [List.mem_singleton, Set.mem_singleton_iff]
        constructor
        · rintro rfl
          exact ⟨rfl, Nat.zero_ne_one⟩
        · exact And.left
      step_ahead := by
        rintro x rfl
        exact .inl rfl
      jump_ahead := by
        rintro x rfl -
        exact .inl rfl }
    length_le := by decide
    rid_pos := by simp [splitTerm]
    length_pos := by simp [splitTerm]
    sorted_pos := by simp [hrec] }
  refine ⟨{
    sorted := ?_
    rid_pos := ?_
    nonempty := by simp [splitTerm]
    length_pos := by simp [splitTerm, Stored.loads]
    sorted_pos := ?_
    chained := ⟨_, _, hchained⟩ }, _, _, hchained, ?_⟩
  · rw [hhits]
    exact List.pairwise_pair.2 (Docid.lt_def.2 (.inl (by decide)))
  · rw [hhits]
    decide
  · rw [hhits]
    decide
  · rw [hhits]
    simp [hrec, merged, emit, Hit.visible]

theorem merge_of_terms_splitTerm :
    (∃ bins os, pushAll ⟨true, false, true⟩ [.sole 4 1 0, .stored splitTerm] 0 = some bins ∧
      os.Perm [⟨⟨4, 1⟩, 0⟩, ⟨⟨3, 1⟩, 4⟩, ⟨⟨5, 1⟩, 7⟩, ⟨⟨20, 1⟩, 3⟩] ∧
      Merges ⟨true, false, true⟩ bins os) ∧
    ∃ bins os, pushAll ⟨true, false, true⟩ [.sole 4 1 0, .stored splitTerm] 0 = some bins ∧
      Laws ⟨true, false, true⟩ bins os := by
  have hsole : (Term.sole 4 1 0).Holds ⟨true, false, true⟩ [soleHit 4 1 0] := rfl
  have h := merge_of_terms (.cons hsole (.cons splitTerm_holds .nil))
  obtain ⟨bins, os, hrun, -, hlaws, -⟩ := h.2 (by
    intro t ht
    rcases List.mem_cons.1 ht with rfl | ht
    · trivial
    · obtain rfl := List.mem_singleton.1 ht
      exact ⟨by simp [splitTerm], by simp [splitTerm]⟩) 0
  exact ⟨h.1, bins, os, hrun, hlaws⟩

/-- Of two cursors before the target, `cursor_heap_pop` goes on with one only. And a cursor that
holds a posting below the target returns it. -/
theorem pop_leaves_before :
    ((pushAll ⟨true, false, true⟩ [.sole 1 1 0, .sole 2 1 0] 0).bind
        (pop ⟨true, false, true⟩ 10)).bind (drain ⟨true, false, true⟩ 9) =
      some [⟨⟨2, 1⟩, 0⟩] ∧
    ((pushAll ⟨true, false, true⟩ [.stored splitTerm] 0).bind
        (pop ⟨true, false, true⟩ 10)).bind (drain ⟨true, false, true⟩ 9) =
      some [⟨⟨5, 1⟩, 7⟩, ⟨⟨20, 1⟩, 3⟩] := by
  decide

end Groonga.Ii.CursorHeap
