import Groonga.Ii.CursorHeap

/-!
# Token infos

A token info is a token of a query: the heap of its cursors, its offset in the query, and the
place it is at. It is moved on to a record and section, or within them to a position, and that
is all the search does with it. So it is a list of places in order, of which the first ones are
taken off.
-/

namespace Groonga.Ii

open Groonga.Lib
open StoredCursor (atLeast)

namespace CursorHeap

/-! ## The merged stream -/

variable (ii : Layout) (skips : Prop)

/-- **A heap as one list**: the places of its cursors in order. At most `n` postings are ahead. -/
def Stream (h : List Cursor) (n : ℕ) (os : List Occ) : Prop :=
  ∃ xs, Holds ii skips h xs ∧ size xs = n ∧ os.Perm (contents xs) ∧ os.Pairwise (· ≤ ·)

section Stream

variable {ii} {skips} {h bins : List Cursor} {c : Cursor} {n : ℕ} {os : List Occ}

theorem Stream.nil (hs : Stream ii skips [] n os) : os = [] := by
  obtain ⟨xs, hh, -, hperm, -⟩ := hs
  rw [hh.contents_eq_nil] at hperm
  exact hperm.eq_nil

/-- Places in order are one list only. -/
theorem stream_of_holds {xs : List Track} (hh : Holds ii skips h xs) :
    ∃ os, Stream ii skips h (size xs) os ∧ os.Perm (contents xs) := by
  have hperm := (contents xs).mergeSort_perm (fun a b => decide (a ≤ b))
  refine ⟨_, ⟨xs, hh, rfl, hperm, ?_⟩, hperm⟩
  have hsorted := @List.pairwise_mergeSort Occ (fun a b => decide (a ≤ b))
    (by simpa using fun a b c => le_trans) (by simpa using le_total) (contents xs)
  exact hsorted.imp fun hle => of_decide_eq_true hle

/-- The first cursor is at the first place. -/
theorem Stream.cons (hs : Stream ii skips (c :: bins) n os) : ∃ os', os = c.occ :: os' := by
  obtain ⟨xs, hh, -, hperm, hsorted⟩ := hs
  obtain ⟨x, ys, rfl, hpoints, -⟩ := hh.head
  obtain ⟨ls, hls⟩ := hpoints.head
  have hmem : c.occ ∈ os := hperm.mem_iff.2 (by simp [contents, hls])
  cases os with
  | nil => cases hmem
  | cons o os =>
    have hle : c.occ ≤ o := hh.le o (hperm.mem_iff.1 List.mem_cons_self)
    have hge : o ≤ c.occ := by
      rcases List.mem_cons.1 hmem with heq | hmem
      · exact heq.ge
      · exact (List.pairwise_cons.1 hsorted).1 _ hmem
    exact ⟨os, by rw [le_antisymm hle hge]⟩

/-- **`cursor_heap_pop_pos`** takes the first place off. -/
theorem Stream.popPos (hs : Stream ii skips (c :: bins) n os) :
    ∃ h' m os', popPos ii (c :: bins) = some h' ∧ os = c.occ :: os' ∧ m ≤ n ∧
      Stream ii skips h' m os' := by
  obtain ⟨os', rfl⟩ := hs.cons
  obtain ⟨xs, hh, rfl, hperm, hsorted⟩ := hs
  obtain ⟨h', ys, hrun, hh', hcontents, hle⟩ := popPos_spec hh
  exact ⟨h', size ys, os', hrun, rfl, hle, ys, hh', rfl, (hperm.trans hcontents).cons_inv,
    hsorted.of_cons⟩

/-- **Going through a heap** gives all the places in order. -/
theorem Stream.drain {fuel : ℕ} (hs : Stream ii skips h n os) (hfuel : os.length < fuel) :
    drain ii fuel h = some os := by
  induction fuel generalizing h n os with
  | zero => omega
  | succ fuel ih =>
    cases h with
    | nil =>
      rw [hs.nil]
      rfl
    | cons c bins =>
      obtain ⟨h', m, os', hrun, rfl, -, hs'⟩ := hs.popPos
      rw [List.length_cons] at hfuel
      rw [CursorHeap.drain, hrun]
      simp only [Option.bind_eq_bind, Option.bind_some, ih hs' (by omega)]
      rfl

/-- One `cursor_heap_pop`: `own` are the places of the first cursor. -/
structure Popped (d : Docid) (min : ℕ) (os os' own rest : List Occ) (waiting : List Hit) :
    Prop where
  before : os.Perm (own ++ rest)
  after : os'.Perm (waiting.flatMap occsOf ++ (further d min own ++ rest))
  waiting : waiting.length ≤ 1 ∧ ∀ w ∈ waiting, w.docid.rid < min

theorem Stream.pop (hs : Stream ii skips (c :: bins) n os) (hskips : skips) (min : ℕ) :
    ∃ h' m os' own rest waiting k, pop ii min (c :: bins) = some h' ∧ m < n ∧
      Stream ii skips h' m os' ∧ Stream ii skips [c] k own ∧
      Popped c.docid min os os' own rest waiting := by
  obtain ⟨xs, hh, rfl, hperm, hsorted⟩ := hs
  obtain ⟨h', zs, x, ys, hrun, hh', hlt, rfl, hpoints, waiting, hcontents, hwaiting⟩ :=
    pop_spec hh hskips min
  obtain ⟨os', hs', hperm'⟩ := stream_of_holds hh'
  have hone : Holds ii skips [c] [x] :=
    ⟨fun i hi y _ z hz => by
      obtain ⟨hlt, -⟩ := List.getElem?_eq_some_iff.1 hz
      rw [List.length_singleton] at hlt
      omega, List.forall₂_cons.2 ⟨hpoints, .nil⟩⟩
  refine ⟨h', _, os', x.occs, contents ys, waiting, _, hrun, hlt, hs',
    ⟨_, hone, rfl, .of_eq ?_, hpoints.sorted⟩, hperm, hperm'.trans hcontents, hwaiting⟩
  simp [contents]

end Stream

end CursorHeap

/-! ## Token infos -/

open CursorHeap

/-- What does not change in a token info while it is searched. -/
structure TokenLabel where
  offset : ℕ
  phraseId : ℕ
  nTokensInPhrase : ℕ
  nUsedTokensInPhrase : ℕ
  mustLast : Bool

/-- `token_info`: what the search needs of it. `p` is the place that its posting is at. -/
structure TokenInfo extends TokenLabel where
  cursors : List Cursor
  pos : ℤ
  p : Occ

namespace TokenInfo

variable (ii : Layout)

/-- The end of `token_info_skip` and `token_info_skip_pos`: whether there is a place. -/
def locate (ti : TokenInfo) : List Cursor → TokenInfo × Bool
  | [] => ({ ti with cursors := [] }, false)
  | c :: bins =>
    ({ ti with cursors := c :: bins, pos := (c.pos : ℤ) - ti.offset, p := c.occ }, true)

/-- The loop of `token_info_skip`. -/
def skipLoop (d : Docid) : ℕ → List Cursor → Option (List Cursor)
  | 0, _ => none
  | _ + 1, [] => some []
  | fuel + 1, c :: bins =>
    if c.docid.rid > d.rid ∨ c.docid.rid = d.rid ∧ c.docid.sid ≥ d.sid then some (c :: bins)
    else do skipLoop d fuel (← CursorHeap.pop ii d.rid (c :: bins))

/-- `token_info_skip`; `none` is a loop that does not end. -/
def skip (fuel : ℕ) (ti : TokenInfo) (d : Docid) : Option (TokenInfo × Bool) :=
  (skipLoop ii d fuel ti.cursors).map ti.locate

/-- The loop of `token_info_skip_pos`. -/
def skipPosLoop (d : Docid) (pos : ℤ) : ℕ → List Cursor → Option (List Cursor)
  | 0, _ => none
  | _ + 1, [] => some []
  | fuel + 1, c :: bins =>
    if c.docid.rid ≠ d.rid ∨ c.docid.sid ≠ d.sid ∨ (c.pos : ℤ) ≥ pos then some (c :: bins)
    else do skipPosLoop d pos fuel (← CursorHeap.popPos ii (c :: bins))

/-- `token_info_skip_pos`. -/
def skipPos (fuel : ℕ) (ti : TokenInfo) (d : Docid) (pos : ℤ) : Option (TokenInfo × Bool) :=
  (skipPosLoop ii d (pos + ti.offset) fuel ti.cursors).map ti.locate

/-! ## The places of a token info -/

variable (skips : Prop)

/-- **A token info at the first of its places.** -/
structure Follows (ti : TokenInfo) (n : ℕ) (os : List Occ) : Prop where
  stream : Stream ii skips ti.cursors n os
  p : ∀ o ∈ os.head?, ti.p = o
  pos : ∀ o ∈ os.head?, ti.pos = (o.pos : ℤ) - ti.offset

section Laws

variable {ii} {skips} {h : List Cursor} {n : ℕ} {os : List Occ} {d : Docid}

theorem locate_spec (ti : TokenInfo) (hs : Stream ii skips h n os) :
    Follows ii skips (ti.locate h).1 n os ∧ (ti.locate h).1.toTokenLabel = ti.toTokenLabel ∧
      ((ti.locate h).2 = true ↔ os ≠ []) := by
  cases h with
  | nil =>
    obtain rfl := hs.nil
    exact ⟨⟨hs, by simp, by simp⟩, rfl, by simp [locate]⟩
  | cons c bins =>
    obtain ⟨os', rfl⟩ := hs.cons
    refine ⟨⟨hs, ?_, ?_⟩, rfl, by simp [locate]⟩
    · rintro o ho
      cases ho
      rfl
    · rintro o ho
      cases ho
      rfl

/-- The places that are not before a record and section. -/
theorem dropWhile_eq_filter (hs : os.Pairwise (· ≤ ·)) (d : Docid) :
    os.dropWhile (fun o => decide (o.docid < d)) = os.filter fun o => d ≤ o.docid := by
  induction os with
  | nil => rfl
  | cons o os ih =>
    by_cases ho : o.docid < d
    · rw [List.dropWhile_cons, if_pos (decide_eq_true ho),
        List.filter_cons_of_neg (by simpa using ho), ih hs.of_cons]
    · rw [List.dropWhile_cons, if_neg (by simpa using ho), eq_comm, List.filter_eq_self]
      intro o' ho'
      have hle : o.docid ≤ o'.docid := by
        rcases List.mem_cons.1 ho' with rfl | ho'
        · exact le_rfl
        · rcases Occ.le_def.1 ((List.pairwise_cons.1 hs).1 o' ho') with hlt | ⟨heq, -⟩
          · exact hlt.le
          · exact heq.le
      exact decide_eq_true ((not_lt.1 ho).trans hle)

/-- A pop from a posting before `d` changes nothing from `d` on. -/
theorem filter_popped {d₀ : Docid} {os' own rest : List Occ} {waiting : List Hit}
    (hd : d₀ < d) (h : Popped d₀ d.rid os os' own rest waiting)
    (hs : os.Pairwise (· ≤ ·)) (hs' : os'.Pairwise (· ≤ ·)) :
    (os'.filter fun o => decide (d ≤ o.docid)) = os.filter fun o => decide (d ≤ o.docid) := by
  have hfurther : ((further d₀ d.rid own).filter fun o => decide (d ≤ o.docid)) =
      own.filter fun o => decide (d ≤ o.docid) := by
    rw [further, List.filter_filter]
    refine List.filter_congr fun o _ => ?_
    by_cases ho : d ≤ o.docid
    · have hne : o.docid ≠ d₀ := (hd.trans_le ho).ne'
      simp [ho, hne, Docid.rid_le ho]
    · simp [ho]
  have hwaiting : ((waiting.flatMap occsOf).filter fun o => decide (d ≤ o.docid)) = [] :=
    List.filter_eq_nil_iff.2 fun o ho => by
      rw [decide_eq_true_eq, not_le]
      obtain ⟨w, hw, ho⟩ := List.mem_flatMap.1 ho
      obtain ⟨p, -, rfl⟩ := List.mem_map.1 ho
      exact Docid.lt_def.2 (.inl (h.waiting.2 w hw))
  have h1 := h.before.filter fun o => decide (d ≤ o.docid)
  have h2 := h.after.filter fun o => decide (d ≤ o.docid)
  rw [List.filter_append] at h1
  rw [List.filter_append, List.filter_append, hwaiting, List.nil_append, hfurther] at h2
  exact (h2.trans h1.symm).eq_of_pairwise (fun _ _ _ _ => le_antisymm)
    (hs'.sublist List.filter_sublist) (hs.sublist List.filter_sublist)

theorem skipLoop_spec (hs : Stream ii skips h n os) (hskips : skips) (d : Docid) :
    ∃ h' m, (∀ fuel, n < fuel → skipLoop ii d fuel h = some h') ∧ m ≤ n ∧
      Stream ii skips h' m (os.filter fun o => d ≤ o.docid) := by
  induction n using Nat.strongRecOn generalizing h os with
  | ind n ih =>
    cases h with
    | nil =>
      obtain rfl := hs.nil
      refine ⟨[], n, fun fuel hfuel => ?_, le_rfl, hs⟩
      obtain ⟨fuel, rfl⟩ := Nat.exists_eq_add_of_lt hfuel
      rfl
    | cons c bins =>
      have hcond : (c.docid.rid > d.rid ∨ c.docid.rid = d.rid ∧ c.docid.sid ≥ d.sid) ↔
          d ≤ c.docid := by
        rw [Docid.le_def]
        omega
      obtain ⟨-, -, -, -, hsorted⟩ := id hs
      by_cases hd : d ≤ c.docid
      · refine ⟨c :: bins, n, fun fuel hfuel => ?_, le_rfl, ?_⟩
        · obtain ⟨fuel, rfl⟩ := Nat.exists_eq_add_of_lt hfuel
          rw [skipLoop, if_pos (hcond.2 hd)]
        · obtain ⟨os', rfl⟩ := hs.cons
          have hstop : ¬ decide (c.occ.docid < d) = true := by
            rw [decide_eq_true_eq]
            exact not_lt.2 hd
          rw [← dropWhile_eq_filter hsorted, List.dropWhile_cons, if_neg hstop]
          exact hs
      · obtain ⟨h', m, os', own, rest, waiting, k, hrun, hlt, hs', -, hpopped⟩ :=
          hs.pop hskips d.rid
        obtain ⟨h'', m', hrun', hle, hs''⟩ := ih m hlt hs'
        obtain ⟨-, -, -, -, hsorted'⟩ := hs'
        refine ⟨h'', m', fun fuel hfuel => ?_, by omega, ?_⟩
        · obtain ⟨fuel, rfl⟩ := Nat.exists_eq_add_of_lt hfuel
          rw [skipLoop, if_neg (mt hcond.1 hd), hrun]
          exact hrun' _ (by omega)
        · rw [← filter_popped (not_le.1 hd) hpopped hsorted hsorted']
          exact hs''

/-- **`token_info_skip`** goes to the first place that is not before `d`. -/
theorem skip_spec {ti : TokenInfo} (hs : Stream ii skips ti.cursors n os) (hskips : skips)
    (d : Docid) :
    ∃ ti' b m, (∀ fuel, n < fuel → skip ii fuel ti d = some (ti', b)) ∧ m ≤ n ∧
      ti'.toTokenLabel = ti.toTokenLabel ∧ Follows ii skips ti' m (os.dropWhile fun o => o.docid < d) ∧
      (b = true ↔ (os.dropWhile fun o => decide (o.docid < d)) ≠ []) := by
  obtain ⟨-, -, -, -, hsorted⟩ := id hs
  obtain ⟨h', m, hrun, hle, hs'⟩ := skipLoop_spec hs hskips d
  rw [← dropWhile_eq_filter hsorted] at hs'
  obtain ⟨h1, h2, h3⟩ := locate_spec ti hs'
  refine ⟨_, _, m, fun fuel hfuel => ?_, hle, h2, h1, h3⟩
  rw [TokenInfo.skip, hrun fuel hfuel]
  rfl

theorem skipPosLoop_spec (hs : Stream ii skips h n os) (d : Docid) (pos : ℤ) :
    ∃ h' m, (∀ fuel, os.length < fuel → skipPosLoop ii d pos fuel h = some h') ∧ m ≤ n ∧
      Stream ii skips h' m (os.dropWhile fun o => o.docid = d ∧ (o.pos : ℤ) < pos) := by
  induction os generalizing h n with
  | nil =>
    cases h with
    | nil =>
      refine ⟨[], n, fun fuel hfuel => ?_, le_rfl, hs⟩
      obtain ⟨fuel, rfl⟩ := Nat.exists_eq_add_of_lt hfuel
      rfl
    | cons c bins =>
      obtain ⟨os', hnil⟩ := hs.cons
      cases hnil
  | cons o os ih =>
    cases h with
    | nil => cases hs.nil
    | cons c bins =>
      have hcond : (c.docid.rid ≠ d.rid ∨ c.docid.sid ≠ d.sid ∨ (c.pos : ℤ) ≥ pos) ↔
          ¬ (c.occ.docid = d ∧ (c.occ.pos : ℤ) < pos) := by
        have hext : c.docid = d ↔ c.docid.rid = d.rid ∧ c.docid.sid = d.sid := by
          cases c.docid
          cases d
          simp
        simp only [Cursor.occ, hext]
        omega
      obtain ⟨h', m, os', hrun, heq, hle, hs'⟩ := hs.popPos
      cases heq
      rw [List.dropWhile_cons]
      by_cases hstop : c.occ.docid = d ∧ (c.occ.pos : ℤ) < pos
      · obtain ⟨h'', m', hrun', hle', hs''⟩ := ih hs'
        refine ⟨h'', m', fun fuel hfuel => ?_, by omega, ?_⟩
        · rw [List.length_cons] at hfuel
          obtain ⟨fuel, rfl⟩ := Nat.exists_eq_add_of_lt hfuel
          rw [skipPosLoop, if_neg (mt hcond.1 (not_not.2 hstop)), hrun]
          exact hrun' _ (by omega)
        · rw [if_pos (decide_eq_true hstop)]
          exact hs''
      · refine ⟨c :: bins, n, fun fuel hfuel => ?_, le_rfl, ?_⟩
        · obtain ⟨fuel, rfl⟩ := Nat.exists_eq_add_of_lt hfuel
          rw [skipPosLoop, if_pos (hcond.2 hstop)]
        · rw [if_neg (mt of_decide_eq_true hstop)]
          exact hs

/-- **`token_info_skip_pos`** goes to the first place that is not before `pos` in `d`. -/
theorem skipPos_spec {ti : TokenInfo} (hs : Stream ii skips ti.cursors n os) (d : Docid)
    (pos : ℤ) :
    ∃ ti' b m, (∀ fuel, os.length < fuel → skipPos ii fuel ti d pos = some (ti', b)) ∧ m ≤ n ∧
      ti'.toTokenLabel = ti.toTokenLabel ∧
      Follows ii skips ti' m
        (os.dropWhile fun o => o.docid = d ∧ (o.pos : ℤ) - ti.offset < pos) ∧
      (b = true ↔ (os.dropWhile fun o =>
        decide (o.docid = d ∧ (o.pos : ℤ) - ti.offset < pos)) ≠ []) := by
  obtain ⟨h', m, hrun, hle, hs'⟩ := skipPosLoop_spec hs d (pos + ti.offset)
  have hcond : ∀ o : Occ, ((o.pos : ℤ) < pos + ti.offset) ↔ (o.pos : ℤ) - ti.offset < pos := by
    intro o
    omega
  simp only [hcond] at hs'
  obtain ⟨h1, h2, h3⟩ := locate_spec ti hs'
  refine ⟨_, _, m, fun fuel hfuel => ?_, hle, h2, h1, h3⟩
  rw [TokenInfo.skipPos, hrun fuel hfuel]
  rfl

end Laws

end TokenInfo

end Groonga.Ii
