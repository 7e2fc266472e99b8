import Groonga.Ii.CursorSteps

/-!
# A cursor as a list of occurrences

Between two calls a cursor stands at a position of a posting, with the further positions of the
posting and the further postings ahead. The operations are described by that alone here: opening
a cursor, its two ways on, and the way on from a record id.
-/

namespace Groonga.Ii.StoredCursor

open Groonga.Lib

variable {ii : Layout} {skips : Prop}

/-! ## The bound of the rounds -/

section Rounds

variable {c : StoredCursor} {suf : List ℕ}

theorem length_chunkHits (s : Stored) :
    (s.chunkHits ii).length = (s.loads.map List.length).sum := by
  unfold Stored.chunkHits
  rw [List.length_flatMap]
  congr 1
  refine List.map_congr_left fun l _ => ?_
  exact length_hits

/-- A cursor has no more left than its term has postings. -/
theorem Inv.size_lt_rounds (h : Inv ii skips c suf) : size ii c suf < rounds c.src := by
  have hchunk := h.suffix.length_le
  rw [length_chunkHits] at hchunk
  obtain ⟨used, pre, hchained, hheld⟩ := h.chained
  have hlen := hchained.length_le
  rw [List.length_append] at hlen
  have hbuffer : ((if c.bufferUsed then [] else heldBuffer ii c) ++
      bufferRest ii c suf).length ≤ 2 ^ 16 := by
    rw [List.length_append, bufferRest, List.length_map]
    split_ifs with hused
    · simp only [List.length_nil]
      omega
    · by_cases hrid : c.pb.rid = 0
      · rw [heldBuffer, if_pos hrid, List.length_nil]
        omega
      · obtain ⟨pre', x, rfl, -⟩ := hheld (by simpa using hused) hrid
        rw [heldBuffer, if_neg hrid]
        simp only [List.length_append, List.length_singleton] at hlen ⊢
        omega
  unfold size rounds
  omega

end Rounds

/-! ## Opening -/

section Open

variable {s : Stored} {min : ℕ}

/-- The chunks that are passed end below `min` by the table. -/
theorem openChunks_spec {xs pre : List SplitChunk} {at_ : ℕ × ℕ}
    (hat : ∃ done rest, pre = done ++ rest ∧ at_ = (done.length, dgaps done) ∧
      (done ≠ [] → dgaps done < min)) :
    ∃ done rest, pre ++ xs = done ++ rest ∧
      openChunks min xs pre.length (dgaps pre) at_ = (done.length, dgaps done) ∧
      (done ≠ [] → dgaps done < min) := by
  induction xs generalizing pre at_ with
  | nil => simpa [openChunks] using hat
  | cons x xs ih =>
    have hsum : dgaps pre + x.dgap = dgaps (pre ++ [x]) := by simp [dgaps]
    have hlen : pre.length + 1 = (pre ++ [x]).length := by simp
    rw [openChunks, hsum, hlen]
    have hassoc : pre ++ x :: xs = (pre ++ [x]) ++ xs := by simp
    rw [hassoc]
    refine ih ?_
    split_ifs with hlt
    · exact ⟨pre ++ [x], [], by simp, rfl, fun _ => hlt⟩
    · obtain ⟨done, rest, rfl, h1, h2⟩ := hat
      exact ⟨done, rest ++ [x], by simp, h1, h2⟩

theorem loads_drop {done rest : List SplitChunk} (h : s.chunks = done ++ rest) :
    s.loads = done.map (·.entries) ++ s.loads.drop done.length := by
  have hlen : done.length = (done.map (·.entries)).length := by simp
  have hsplit : s.loads = done.map (·.entries) ++
      (rest.map (·.entries) ++ if s.tail = [] then [] else [s.tail]) := by
    rw [Stored.loads, h]
    simp
  rw [hsplit, hlen, List.drop_left]

/-- The postings of a chunk end with the sum of its gaps. -/
theorem rid_le_lastRid {x : SplitChunk} {h : Hit} (hh : h ∈ loadHits ii x.entries) :
    h.docid.rid ≤ x.lastRid := by
  have := rid_le_of_mem_hits hh
  simpa [Internal.nil, SplitChunk.lastRid] using this

theorem atLeast_eq_nil {l : List Hit} (h : ∀ x ∈ l, x.docid.rid < min) : atLeast min l = [] :=
  List.filter_eq_nil_iff.2 fun x hx => by
    have := h x hx
    simp only [decide_eq_true_eq]
    omega

theorem atLeast_append (l l' : List Hit) :
    atLeast min (l ++ l') = atLeast min l ++ atLeast min l' := List.filter_append _ _

/-- **Opening a cursor** leaves out no posting from `min` on. -/
theorem open_spec {used : Set ℕ} {xs : List ℕ} (hwf : s.WF ii) (hsafe : skips → s.SkipSafe)
    (hmin : skips ∨ min = 0) (hchained : s.Chained ii used xs) :
    Inv ii skips (open' s min) xs ∧
      view ii (open' s min) xs = atLeast min
        (merged (s.chunkHits ii) (xs.map fun x => recHit ii (s.recs x))) := by
  obtain ⟨done, rest, hsplit, hopen, hlt⟩ :=
    @openChunks_spec min s.chunks [] (0, 0) ⟨[], [], rfl, rfl, by simp⟩
  have hsplit' : s.chunks = done ++ rest := hsplit
  have hopen' : openChunks min s.chunks 0 0 (0, 0) = (done.length, dgaps done) := hopen
  have hc : open' s min = { open' s min with
      pc := { Internal.nil with rid := dgaps done }, currChunk := done.length } := by
    unfold open'
    rw [hopen']
  have hrest : chunkRest ii (open' s min) =
      (s.loads.drop done.length).flatMap (loadHits ii) := by
    rw [hc]
    rfl
  have hall : s.chunkHits ii = (done.map (·.entries)).flatMap (loadHits ii) ++
      chunkRest ii (open' s min) := by
    rw [hrest, ← List.flatMap_append, ← loads_drop hsplit']
    rfl
  have hpassed : ∀ h ∈ (done.map (·.entries)).flatMap (loadHits ii), h.docid.rid < min := by
    intro h hh
    obtain ⟨l, hl, hhl⟩ := List.mem_flatMap.1 hh
    obtain ⟨x, hx, rfl⟩ := List.mem_map.1 hl
    obtain ⟨mid, post, rfl⟩ := List.append_of_mem hx
    have hend := hlt (by simp)
    have hskips : skips := hmin.resolve_right (by omega)
    have hreach := (hsafe hskips).fromStart mid x (post ++ rest) (by rw [hsplit']; simp)
    have hle := rid_le_lastRid hhl
    rw [dgaps] at hend hreach
    rw [List.map_append, List.map_cons, List.sum_append, List.sum_cons] at hend
    omega
  have hreaches : skips → Reaches s done.length (dgaps done) := by
    intro hskips mid x post hdrop hmid
    have hdrop' : rest = mid ++ x :: post := by
      rw [← hdrop, hsplit', List.drop_left]
    have hend := (hsafe hskips).fromStart (done ++ mid) x post (by rw [hsplit', hdrop']; simp)
    simpa [dgaps, Nat.add_assoc] using hend
  refine ⟨{
    wf := hwf
    safe := hsafe
    chained := ⟨used, [], hchained, fun h0 => Bool.noConfusion h0⟩
    nextb := hchained.skip.chain
    suffix := ?_
    crp := fun _ => by simp [open']
    fresh := fun h0 => Bool.noConfusion h0
    chunkDone := fun h0 => Bool.noConfusion h0
    bufferDone := fun h0 => Bool.noConfusion h0
    reachesPrev := fun _ => .inl ⟨rfl, rfl⟩
    reaches := ?_
    started := ?_ }, ?_⟩
  · change chunkRest ii (open' s min) <:+ s.chunkHits ii
    rw [hall]
    exact List.suffix_append _ _
  · rw [hc]
    exact hreaches
  · rw [hc]
    rintro (hrid | hcrp)
    · refine List.length_pos_iff.2 fun hnil => hrid ?_
      rw [hnil]
      rfl
    · exact absurd rfl hcrp
  · have hmerge := merged_filter min (s.chunkHits ii) (xs.map fun x => recHit ii (s.recs x))
    unfold atLeast
    rw [hmerge, hall]
    change merged ([] ++ atLeast min (chunkRest ii (open' s min))) ([] ++ _) =
      merged (atLeast min _) _
    rw [atLeast_append, atLeast_eq_nil hpassed]
    rfl

end Open

/-! ## Skipping -/

section Skip

variable {c : StoredCursor} {suf : List ℕ} {min : ℕ}

/-- The chunks that are passed end below `min`, counted from `rid`. -/
theorem skipChunks_spec {xs : List SplitChunk} {i rid skip : ℕ} :
    ∃ done rest, xs = done ++ rest ∧
      ((done = [] ∧ skipChunks min xs i rid skip = (skip, rid)) ∨
        (done ≠ [] ∧ skipChunks min xs i rid skip = (i + done.length, rid + dgaps done) ∧
          rid + dgaps done < min)) := by
  induction xs generalizing i rid skip with
  | nil => exact ⟨[], [], rfl, .inl ⟨rfl, rfl⟩⟩
  | cons x xs ih =>
    rw [skipChunks]
    split_ifs with hlt
    · obtain ⟨done, rest, rfl, h⟩ := @ih (i + 1) (rid + x.dgap) (i + 1)
      refine ⟨x :: done, rest, rfl, .inr ⟨by simp, ?_⟩⟩
      have hsum : rid + dgaps (x :: done) = rid + x.dgap + dgaps done := by
        simp [dgaps, Nat.add_assoc]
      rw [hsum, List.length_cons]
      rcases h with ⟨rfl, hrun⟩ | ⟨-, hrun, hbelow⟩
      · rw [hrun]
        exact ⟨by simp [dgaps], by simpa [dgaps] using hlt⟩
      · rw [hrun, Nat.add_comm done.length 1, ← Nat.add_assoc]
        exact ⟨rfl, hbelow⟩
    · exact ⟨[], x :: xs, rfl, .inl ⟨rfl, rfl⟩⟩

/-- What a new lower bound changes. -/
structure Skipped (ii : Layout) (skips : Prop) (c c' : StoredCursor) (suf : List ℕ) (min : ℕ) :
    Prop where
  inv : Inv ii skips c' suf
  src : c'.src = c.src
  min_eq : c'.min = max c.min min
  filter : atLeast min (view ii c' suf) = atLeast min (view ii c suf)
  size_le : size ii c' suf ≤ size ii c suf
  oneUsed : c.chunkUsed = true ∨ c.bufferUsed = true →
    c'.chunkUsed = true ∨ c'.bufferUsed = true
  settled : Settled skips c'

theorem atLeast_atLeast {m n : ℕ} (h : m ≤ n) (l : List Hit) :
    atLeast n (atLeast m l) = atLeast n l := by
  unfold atLeast
  rw [List.filter_filter]
  refine List.filter_congr fun x _ => ?_
  by_cases hn : n ≤ x.docid.rid
  · have hm : m ≤ x.docid.rid := h.trans hn
    simp [hn, hm]
  · simp [hn]

theorem atLeast_merged (m : ℕ) (cs bs : List Hit) :
    atLeast m (merged cs bs) = merged (atLeast m cs) (atLeast m bs) := merged_filter m cs bs

/-- A new bound without leaving out chunks. -/
theorem Inv.raise (h : Inv ii skips c suf) (hset : Settled skips c) (hle : c.min ≤ min) :
    Skipped ii skips c { c with min := min } suf min where
  inv := { h with }
  src := rfl
  min_eq := (max_eq_right hle).symm
  filter := by
    unfold view chunkView bufferView
    rw [atLeast_merged, atLeast_merged, atLeast_append, atLeast_append, atLeast_append,
      atLeast_append, atLeast_atLeast le_rfl, atLeast_atLeast le_rfl, atLeast_atLeast hle,
      atLeast_atLeast hle]
    rfl
  size_le := le_rfl
  oneUsed := id
  settled := hset

/-- The chunks that are left out, and what is behind them. -/
theorem chunkRest_split {done rest : List SplitChunk} {k : ℕ}
    (hsplit : c.src.chunks.drop c.currChunk = done ++ rest) (hk : k = c.currChunk + done.length) :
    chunkRest ii c = hits ii c.pc c.crp ++ (done.map (·.entries)).flatMap (loadHits ii) ++
      (c.src.loads.drop k).flatMap (loadHits ii) := by
  have hle : c.currChunk ≤ c.src.chunks.length ∨ done = [] := by
    by_cases hlen : c.currChunk ≤ c.src.chunks.length
    · exact .inl hlen
    · rw [List.drop_eq_nil_of_le (by omega), eq_comm, List.append_eq_nil_iff] at hsplit
      exact .inr hsplit.1
  have hdrop : c.src.loads.drop c.currChunk =
      done.map (·.entries) ++ c.src.loads.drop k := by
    rcases hle with hle | rfl
    · have hchunks : c.src.chunks = (c.src.chunks.take c.currChunk ++ done) ++ rest := by
        rw [List.append_assoc, ← hsplit, List.take_append_drop]
      have hlen : (c.src.chunks.take c.currChunk).length = c.currChunk := by
        rw [List.length_take]
        omega
      have h₁ := loads_drop hchunks
      have h₂ := loads_drop (s := c.src) (List.take_append_drop c.currChunk c.src.chunks).symm
      rw [List.length_append, hlen, ← hk, List.map_append, List.append_assoc] at h₁
      rw [hlen] at h₂
      exact List.append_cancel_left (h₂.symm.trans h₁)
    · rw [hk]
      rfl
  rw [chunkRest, hdrop, List.flatMap_append, List.append_assoc]

/-- **Leaving out chunks** loses no posting from `min` on. -/
theorem Inv.skip {init rest : List SplitChunk} {last : SplitChunk} (h : Inv ii skips c suf)
    (hlt : c.min < min) (hpc : c.pc.rid ≠ 0)
    (hprev : Reaches c.src (c.currChunk - 1) c.prevChunkRid)
    (hsplit : c.src.chunks.drop (c.currChunk - 1) = init ++ last :: rest) (hinit : init ≠ [])
    (hbelow : c.prevChunkRid + dgaps init + last.dgap < min) :
    Skipped ii skips c
      { c with
        min := min
        pc := { c.pc with rid := c.prevChunkRid + dgaps init + last.dgap, rest := 0 }
        prevChunkRid := c.prevChunkRid + dgaps init
        currChunk := c.currChunk + init.length
        crp := []
        chunkUsed := true } suf min := by
  set c' : StoredCursor := { c with
    min := min
    pc := { c.pc with rid := c.prevChunkRid + dgaps init + last.dgap, rest := 0 }
    prevChunkRid := c.prevChunkRid + dgaps init
    currChunk := c.currChunk + init.length
    crp := []
    chunkUsed := true } with hc'
  have hcurr : 0 < c.currChunk := h.started (.inl hpc)
  obtain ⟨x₀, init', rfl⟩ := List.exists_cons_of_ne_nil hinit
  have hdrop : c.src.chunks.drop c.currChunk = (init' ++ [last]) ++ rest := by
    have hsucc : c.currChunk = c.currChunk - 1 + 1 := by omega
    rw [hsucc, ← List.drop_drop, hsplit]
    simp
  set pend := if c.chunkUsed then [] else heldChunk ii c with hpend
  set D := hits ii c.pc c.crp ++ (init'.map (·.entries)).flatMap (loadHits ii) with hD
  set E := (c.src.loads.drop (c.currChunk + (x₀ :: init').length)).flatMap (loadHits ii) with hE
  have hk : c.currChunk + (x₀ :: init').length = c.currChunk + (init' ++ [last]).length := by simp
  have hrest : chunkRest ii c = D ++ loadHits ii last.entries ++ E := by
    rw [chunkRest_split hdrop hk, hD]
    simp only [List.map_append, List.map_cons, List.map_nil, List.flatMap_append,
      List.flatMap_cons, List.flatMap_nil, List.append_nil, List.append_assoc]
    rfl
  have hrest' : chunkRest ii c' = E := rfl
  have hreach : last.lastRid ≤ c.prevChunkRid + dgaps (x₀ :: init') + last.dgap :=
    hprev _ _ _ hsplit hinit
  have hlastmem : last ∈ c.src.chunks := List.mem_of_mem_drop (i := c.currChunk) (by simp [hdrop])
  obtain ⟨y, hy, -⟩ := @exists_mem_hits ii .nil _ (h.wf.nonempty last hlastmem)
  have hlastbelow : ∀ z ∈ loadHits ii last.entries, z.docid.rid < min := fun z hz => by
    have := rid_le_lastRid hz
    omega
  have hsuffix : pend ++ (D ++ loadHits ii last.entries ++ E) <:+ c.src.chunkHits ii := by
    rw [← hrest]
    exact h.suffix
  have hsorted : Sorted (pend ++ (D ++ loadHits ii last.entries ++ E)) :=
    h.wf.sorted.sublist hsuffix.sublist
  -- what comes before the last of the chunks is smaller than its postings
  have hbefore : ∀ z ∈ pend ++ D, z.docid.rid < min := fun z hz => by
    have hsorted' : Sorted ((pend ++ D) ++ (loadHits ii last.entries ++ E)) := by
      simpa [List.append_assoc] using hsorted
    have hzy := (List.pairwise_append.1 hsorted').2.2 z hz y (List.mem_append_left _ hy)
    exact (Docid.rid_le hzy.le).trans_lt (hlastbelow y hy)
  have hdropped : atLeast min (pend ++ chunkRest ii c) = atLeast min E := by
    have hassoc : pend ++ chunkRest ii c = (pend ++ D) ++ (loadHits ii last.entries ++ E) := by
      rw [hrest]
      simp [List.append_assoc]
    rw [hassoc, atLeast_append (pend ++ D), atLeast_append (loadHits ii last.entries),
      atLeast_eq_nil hbefore, atLeast_eq_nil hlastbelow]
    rfl
  have hreaches : Reaches c'.src (c'.currChunk - 1) c'.prevChunkRid := by
    intro mid x post hmid hne
    have hk : c'.currChunk - 1 = c.currChunk - 1 + (x₀ :: init').length := by
      simp only [hc', List.length_cons]
      omega
    rw [hk, ← List.drop_drop, hsplit, List.drop_left] at hmid
    have := hprev ((x₀ :: init') ++ mid) x post (by rw [hsplit, hmid]; simp) (by simp)
    simp only [dgaps, List.map_append, List.sum_append] at this
    simpa [hc', dgaps, Nat.add_assoc] using this
  refine ⟨?_, rfl, (max_eq_right hlt.le).symm, ?_, ?_, fun _ => .inl rfl, fun _ _ => hreaches⟩
  · exact {
      wf := h.wf
      safe := h.safe
      chained := h.chained
      nextb := h.nextb
      suffix := by
        change chunkRest ii c' <:+ _
        rw [hrest']
        exact ((List.suffix_append _ _).trans (List.suffix_append _ _)).trans hsuffix
      crp := fun _ => by simp [hc']
      fresh := fun h0 => Bool.noConfusion h0
      chunkDone := fun h0 => Bool.noConfusion h0
      bufferDone := h.bufferDone
      reachesPrev := fun _ => .inr hreaches
      reaches := fun _ mid x post hmid hne => by
        have hk : c'.currChunk = c.currChunk - 1 + ((x₀ :: init') ++ [last]).length := by
          simp only [hc', List.length_cons, List.length_append, List.length_nil]
          omega
        have hsplit' : c.src.chunks.drop (c.currChunk - 1) =
            ((x₀ :: init') ++ [last]) ++ rest := by
          rw [hsplit]
          simp
        rw [hk, ← List.drop_drop, hsplit', List.drop_left] at hmid
        have := hprev (((x₀ :: init') ++ [last]) ++ mid) x post (by rw [hsplit', hmid]; simp)
          (by simp)
        simp only [dgaps, List.map_append, List.sum_append] at this
        simpa [hc', dgaps, Nat.add_assoc] using this
      started := fun _ => by
        simp only [hc']
        omega }
  · have hchunks : atLeast min (chunkView ii c') = atLeast min (chunkView ii c) := by
      have hleft : chunkView ii c' = atLeast min E := rfl
      have hright : atLeast min (chunkView ii c) = atLeast min (pend ++ chunkRest ii c) := by
        unfold chunkView
        rw [atLeast_append, atLeast_append, atLeast_atLeast hlt.le]
      rw [hleft, hright, hdropped, atLeast_atLeast le_rfl]
    have hbuffer : atLeast min (bufferView ii c' suf) = atLeast min (bufferView ii c suf) := by
      unfold bufferView
      rw [atLeast_append, atLeast_append, atLeast_atLeast le_rfl, atLeast_atLeast hlt.le]
      rfl
    unfold view
    rw [atLeast_merged, atLeast_merged, hchunks, hbuffer]
  · unfold size
    refine Nat.add_le_add ?_ le_rfl
    change (chunkRest ii c').length ≤ (pend ++ chunkRest ii c).length
    rw [hrest', hrest]
    simp only [List.length_append]
    omega

/-- **A new lower bound** loses no posting from it on. -/
theorem Inv.setMin (h : Inv ii skips c suf) (hskips : skips) (hset : Settled skips c) (min : ℕ) :
    Skipped ii skips c (c.setMin min) suf min := by
  unfold StoredCursor.setMin
  by_cases hle : min ≤ c.min
  · rw [if_pos hle]
    exact ⟨h, rfl, (max_eq_left hle).symm, rfl, le_rfl, id, hset⟩
  rw [if_neg hle]
  have hraise := h.raise hset (not_le.1 hle).le
  dsimp only
  by_cases hskip : c.pc.rid ≠ 0 ∧ c.pc.rid < min ∧ c.prevChunkRid < min ∧
      c.currChunk < c.src.chunks.length
  · rw [if_pos hskip]
    have hpc := hskip.1
    obtain ⟨done, rest, hsplit, hrun⟩ := @skipChunks_spec min
      (c.src.chunks.drop (c.currChunk - 1)) (c.currChunk - 1) c.prevChunkRid 0
    have hcurr : 0 < c.currChunk := h.started (.inl hpc)
    rcases hrun with ⟨-, hrun⟩ | ⟨-, hrun, hbelow⟩
    · rw [hrun, if_neg (by simp)]
      exact hraise
    · rw [hrun]
      dsimp only
      by_cases hmore : c.currChunk < c.currChunk - 1 + done.length
      · -- more than the chunk at hand is passed
        have hlen : 2 ≤ done.length := by omega
        obtain ⟨init, last, rfl⟩ : ∃ init last, done = init ++ [last] :=
          ⟨done.dropLast, done.getLast (List.length_pos_iff.1 (by omega)),
            (List.dropLast_append_getLast _).symm⟩
        have hinit : init ≠ [] := by
          rintro rfl
          simp at hlen
        have hsplit' : c.src.chunks.drop (c.currChunk - 1) = init ++ last :: rest := by
          rw [hsplit]
          simp
        have hsum : c.prevChunkRid + dgaps (init ++ [last]) =
            c.prevChunkRid + dgaps init + last.dgap := by simp [dgaps, Nat.add_assoc]
        have hget : c.src.chunks[c.currChunk - 1 + (init ++ [last]).length - 1]? = some last := by
          have hidx : c.currChunk - 1 + (init ++ [last]).length - 1 =
              c.currChunk - 1 + init.length := by simp
          rw [hidx, ← List.getElem?_drop, hsplit', List.getElem?_append_right le_rfl,
            Nat.sub_self]
          rfl
        have hcurr' : c.currChunk - 1 + (init ++ [last]).length = c.currChunk + init.length := by
          simp
          omega
        rw [hsum] at hbelow
        have := h.skip (not_le.1 hle) hpc (hset hskips hpc) hsplit' hinit hbelow
        rw [if_pos hmore, hsum, hget, hcurr']
        simpa using this
      · rw [if_neg hmore]
        exact hraise
  · rw [if_neg hskip]
    exact hraise

end Skip

/-! ## The next posting and the next position -/

section Stands

variable {c : StoredCursor} {suf : List ℕ} {min : ℕ}

theorem Inv.sorted_chunkView (h : Inv ii skips c suf) : Sorted (chunkView ii c) := by
  refine (h.wf.sorted.sublist h.suffix.sublist).sublist ?_
  exact (List.Sublist.refl _).append List.filter_sublist

/-- The record at hand is the one before those that have not been read. -/
theorem Inv.bufferView_sublist (h : Inv ii skips c suf) :
    ∃ used xs, c.src.Chained ii used xs ∧
      (bufferView ii c suf).Sublist (xs.map fun x => recHit ii (c.src.recs x)) := by
  obtain ⟨used, pre, hchained, hheld⟩ := h.chained
  refine ⟨used, pre ++ suf, hchained, ?_⟩
  rw [List.map_append]
  refine List.Sublist.append ?_ List.filter_sublist
  cases hused : c.bufferUsed with
  | true => simp
  | false =>
    by_cases hrid : c.pb.rid = 0
    · simp [heldBuffer, hrid]
    · obtain ⟨pre', x, rfl, hpb⟩ := hheld hused hrid
      have hmem : recHit ii (c.src.recs x) ∈
          (pre' ++ [x]).map fun x => recHit ii (c.src.recs x) :=
        List.mem_map.2 ⟨x, by simp, rfl⟩
      have hheld : heldBuffer ii c = [recHit ii (c.src.recs x)] := by
        rw [heldBuffer, if_neg hrid, hpb]
        rfl
      simp only [Bool.false_eq_true, if_false]
      rw [hheld]
      exact List.singleton_sublist.2 hmem

theorem Inv.sorted_bufferView (h : Inv ii skips c suf) : Sorted (bufferView ii c suf) := by
  obtain ⟨used, xs, hchained, hsub⟩ := h.bufferView_sublist
  refine List.Pairwise.sublist hsub ?_
  exact @sorted_records ii xs [] _ _ hchained

theorem Inv.sorted_view (h : Inv ii skips c suf) : Sorted (view ii c suf) :=
  sorted_merged h.sorted_chunkView h.sorted_bufferView

/-- What the cursor still returns are postings of its term. -/
theorem Inv.mem_view (h : Inv ii skips c suf) {x : Hit} (hx : x ∈ view ii c suf) :
    x.visible = true ∧ (x ∈ c.src.chunkHits ii ∨
      ∃ used xs, c.src.Chained ii used xs ∧ ∃ r ∈ xs, x = recHit ii (c.src.recs r)) := by
  obtain ⟨hv, hmem⟩ := (mem_merged h.sorted_chunkView h.sorted_bufferView).1 hx
  refine ⟨hv, hmem.symm.imp (fun hc => ?_) fun hb => ?_⟩
  · refine h.suffix.subset ?_
    exact ((List.Sublist.refl _).append List.filter_sublist).subset hc.1
  · obtain ⟨used, xs, hchained, hsub⟩ := h.bufferView_sublist
    obtain ⟨r, hr, hrx⟩ := List.mem_map.1 (hsub.subset hb)
    exact ⟨used, xs, hchained, r, hr, hrx.symm⟩

/-- Of the postings that are left, only the one at hand may be below the bound. -/
theorem Inv.stale (h : Inv ii skips c suf) (hused : c.chunkUsed = true ∨ c.bufferUsed = true) :
    view ii c suf = atLeast c.min (view ii c suf) ∨
      ∃ x, x.docid.rid < c.min ∧ view ii c suf = x :: atLeast c.min (view ii c suf) := by
  -- what is below the bound is the one posting at hand
  have hheld : ∃ l : List Hit, l.length ≤ 1 ∧
      ∀ x ∈ view ii c suf, x.docid.rid < c.min → x ∈ l := by
    have hrest : ∀ (l : List Hit) (x : Hit), x.docid.rid < c.min → x ∉ atLeast c.min l :=
      fun l x hlt hmem => by
        have := of_decide_eq_true (List.mem_filter.1 hmem).2
        omega
    have hlen : ∀ (p : Internal), (if p.rid = 0 then [] else [p.hit ii]).length ≤ 1 := fun p => by
      split_ifs <;> simp
    rcases hused with hused | hused
    · refine ⟨heldBuffer ii c, hlen _, fun x hx hlt => ?_⟩
      rcases mem_of_mem_merged hx with hx | hx
      · rw [chunkView, hused] at hx
        exact absurd hx (hrest _ x hlt)
      · rcases List.mem_append.1 hx with hx | hx
        · split_ifs at hx
          · cases hx
          · exact hx
        · exact absurd hx (hrest _ x hlt)
    · refine ⟨heldChunk ii c, hlen _, fun x hx hlt => ?_⟩
      rcases mem_of_mem_merged hx with hx | hx
      · rcases List.mem_append.1 hx with hx | hx
        · split_ifs at hx
          · cases hx
          · exact hx
        · exact absurd hx (hrest _ x hlt)
      · rw [bufferView, hused] at hx
        exact absurd hx (hrest _ x hlt)
  obtain ⟨l, hl, hmem⟩ := hheld
  have hsorted := h.sorted_view
  cases hview : view ii c suf with
  | nil => exact .inl rfl
  | cons x rest =>
    rw [hview] at hsorted hmem
    have hlt := (List.pairwise_cons.1 hsorted).1
    -- behind the first posting none is below the bound: it would be at hand too
    have hrest : ∀ y ∈ rest, c.min ≤ y.docid.rid := fun y hy => by
      by_contra hlow
      have hxy := Docid.rid_le (hlt y hy).le
      have hx := hmem x List.mem_cons_self (by omega)
      have hy' := hmem y (List.mem_cons_of_mem _ hy) (by omega)
      match l, hl with
      | [], _ => cases hx
      | [z], _ =>
        have hxz := List.mem_singleton.1 hx
        have hyz := List.mem_singleton.1 hy'
        have := hlt y hy
        rw [hxz, hyz] at this
        exact lt_irrefl _ this
    have hkeep : atLeast c.min rest = rest := atLeast_of_forall hrest
    by_cases hx : c.min ≤ x.docid.rid
    · left
      rw [eq_comm, atLeast_of_forall]
      intro y hy
      rcases List.mem_cons.1 hy with rfl | hy
      · exact hx
      · exact hrest y hy
    · refine .inr ⟨x, not_le.1 hx, ?_⟩
      have hdrop : atLeast c.min (x :: rest) = atLeast c.min rest :=
        List.filter_cons_of_neg (by simpa using hx)
      rw [hdrop, hkeep]

/-- The positions that have not been read of the posting returned last. -/
def unread (ii : Layout) (c : StoredCursor) (x : Side) : List ℕ :=
  if ii.withPosition then cumul (c.side x).pos (c.side x).gaps
  else if c.solePosUsed then [] else [0]

/-- **Where a cursor stands** after it returned a posting. -/
structure Stands (ii : Layout) (skips : Prop) (c : StoredCursor) (suf : List ℕ) (x : Side) :
    Prop where
  inv : Inv ii skips c suf
  settled : Settled skips c
  post : c.post = some x
  used : c.usedUp x = true
  rest : ii.withPosition = true → (c.side x).rest = (c.side x).gaps.length
  pos : ii.withPosition = false → (c.side x).pos = 0
  bound : ∀ h ∈ view ii c suf, c.min ≤ h.docid.rid

/-- **`next` from anywhere**: it returns the first posting that is left. -/
theorem Inv.next (h : Inv ii skips c suf) (hused : c.chunkUsed = true ∨ c.bufferUsed = true) :
    (next ii c = some none ∧ view ii c suf = []) ∨
      ∃ c' suf' x, next ii c = some (some c') ∧ Stands ii skips c' suf' x ∧ c'.min = c.min ∧
        view ii c suf =
          ⟨⟨(c'.side x).rid, (c'.side x).sid⟩, (c'.side x).tf, (c'.side x).weight,
            unread ii c' x⟩ :: view ii c' suf' ∧
        size ii c' suf' < size ii c suf := by
  unfold StoredCursor.next
  rcases nextLoop_spec h h.size_lt_rounds with ⟨hrun, hnil⟩ | ⟨c', suf', x, hrun, hr⟩
  · exact .inl ⟨hrun, hnil⟩
  · refine .inr ⟨c', suf', x, hrun, {
      inv := hr.inv
      settled := hr.settled
      post := hr.post
      used := hr.used
      rest := fun hp => by rw [hr.fresh.rest, hr.fresh.gaps hp]
      pos := fun _ => hr.fresh.pos
      bound := ?_ }, hr.min_eq, ?_, hr.size_lt⟩
    · intro y hy
      rw [hr.min_eq]
      rcases h.stale hused with heq | ⟨z, -, heq⟩
      · have hmem : y ∈ view ii c suf := by
          rw [hr.view]
          exact List.mem_cons_of_mem _ hy
        rw [heq] at hmem
        simpa using (List.mem_filter.1 hmem).2
      · have hmem : y ∈ atLeast c.min (view ii c suf) := by
          have htail := (List.cons.inj (heq.symm.trans hr.view)).2
          rw [htail]
          exact hy
        simpa using (List.mem_filter.1 hmem).2
    · rw [hr.view]
      refine congrArg (· :: _) ?_
      unfold Internal.hit unread
      rw [hr.fresh.pos, hr.solePos]
      rfl

/-- The cursor with another posting at a side. -/
def setSide (c : StoredCursor) : Side → Internal → StoredCursor
  | .chunk, p => { c with pc := p }
  | .buffer, p => { c with pb := p }

/-- Reading positions of a posting that is used up changes nothing of what is left. -/
theorem Inv.setSide (h : Inv ii skips c suf) {x : Side} (hused : c.usedUp x = true) {p : Internal}
    (hrid : p.rid = (c.side x).rid) (hsid : p.sid = (c.side x).sid) :
    Inv ii skips (c.setSide x p) suf ∧ view ii (c.setSide x p) suf = view ii c suf ∧
      size ii (c.setSide x p) suf = size ii c suf := by
  cases x with
  | chunk =>
    have hused' : c.chunkUsed = true := hused
    have hrid' : p.rid = c.pc.rid := hrid
    have hrest : chunkRest ii (c.setSide .chunk p) = chunkRest ii c :=
      congrArg (· ++ _) (hits_congr hrid hsid)
    have hheld : (if (c.setSide .chunk p).chunkUsed then [] else
        heldChunk ii (c.setSide .chunk p)) = if c.chunkUsed then [] else heldChunk ii c := by
      rw [hused', show (c.setSide .chunk p).chunkUsed = true from hused']
      rfl
    refine ⟨{
      wf := h.wf
      safe := h.safe
      chained := h.chained
      nextb := h.nextb
      suffix := by
        rw [hheld, hrest]
        exact h.suffix
      crp := h.crp
      fresh := fun h0 => absurd (hused'.symm.trans h0) (by simp)
      chunkDone := fun h0 => absurd (hused'.symm.trans h0) (by simp)
      bufferDone := h.bufferDone
      reachesPrev := h.reachesPrev
      reaches := fun hs => by
        change Reaches c.src c.currChunk (p.rid + _)
        rw [hrid']
        exact h.reaches hs
      started := fun hor => h.started (by rwa [← hrid']) }, ?_, ?_⟩
    · unfold view chunkView
      rw [hheld, hrest]
      rfl
    · unfold size
      rw [hheld, hrest]
      rfl
  | buffer =>
    have hused' : c.bufferUsed = true := hused
    have hheld : (if (c.setSide .buffer p).bufferUsed then [] else
        heldBuffer ii (c.setSide .buffer p)) = if c.bufferUsed then [] else heldBuffer ii c := by
      rw [hused', show (c.setSide .buffer p).bufferUsed = true from hused']
      rfl
    refine ⟨{ h with
      chained := by
        obtain ⟨used, pre, hchained, -⟩ := h.chained
        exact ⟨used, pre, hchained, fun h0 => absurd (hused'.symm.trans h0) (by simp)⟩
      bufferDone := fun h0 => absurd (hused'.symm.trans h0) (by simp) }, ?_, ?_⟩
    · unfold view bufferView
      rw [hheld]
      rfl
    · unfold size
      rw [hheld]
      rfl

@[simp] theorem side_setSide (x : Side) (p : Internal) : (c.setSide x p).side x = p := by
  cases x <;> rfl

theorem nextPos_eq {x : Side} (hp : ii.withPosition = true) (hpost : c.post = some x) :
    nextPos ii c = (advancePos (c.side x)).map (c.setSide x) := by
  rw [StoredCursor.nextPos, if_pos hp]
  obtain ⟨_, _, _, _, _, _, _, _, _, _, _, _⟩ := c
  cases hpost
  cases x <;> rfl

/-- `next_pos` goes through the unread positions. -/
theorem Stands.nextPos {x : Side} (h : Stands ii skips c suf x) :
    (nextPos ii c = none ∧ unread ii c x = []) ∨
      ∃ c', nextPos ii c = some c' ∧ Stands ii skips c' suf x ∧
        unread ii c x = (c'.side x).pos :: unread ii c' x ∧
        (∃ pos rest gaps, c'.side x =
          { c.side x with pos := pos, rest := rest, gaps := gaps }) ∧
        view ii c' suf = view ii c suf ∧ size ii c' suf = size ii c suf := by
  unfold unread
  cases hp : ii.withPosition with
  | false =>
    rw [StoredCursor.nextPos, hp]
    simp only [Bool.false_eq_true, if_false]
    cases hsole : c.solePosUsed with
    | true => exact .inl ⟨by simp, by simp⟩
    | false =>
      refine .inr ⟨{ c with solePosUsed := true }, by simp, { h with inv := { h.inv with } },
        ?_, ⟨(c.side x).pos, (c.side x).rest, (c.side x).gaps, by cases x <;> rfl⟩, rfl, rfl⟩
      have hpos := h.pos hp
      have hside : ({ c with solePosUsed := true } : StoredCursor).side x = c.side x := by
        cases x <;> rfl
      rw [hside, hpos]
      simp
  | true =>
    rw [nextPos_eq hp h.post]
    simp only [if_true]
    have hrest := h.rest hp
    unfold advancePos
    cases hgaps : (c.side x).gaps with
    | nil =>
      rw [hgaps] at hrest
      rw [if_pos (by simpa using hrest)]
      exact .inl ⟨rfl, rfl⟩
    | cons g gs =>
      rw [hgaps, List.length_cons] at hrest
      rw [if_neg (by omega)]
      set p : Internal := { c.side x with
        rest := (c.side x).rest - 1
        pos := ((c.side x).pos + g) % 2 ^ 32
        gaps := gs } with hpdef
      obtain ⟨hinv, hview, hsize⟩ := h.inv.setSide h.used (p := p) rfl rfl
      refine .inr ⟨c.setSide x p, rfl, {
        inv := hinv
        settled := ?_
        post := ?_
        used := ?_
        rest := fun _ => ?_
        pos := fun h0 => by rw [hp] at h0; cases h0
        bound := ?_ }, ?_, ⟨_, _, _, side_setSide x p⟩, hview, hsize⟩
      · have hset := h.settled
        cases x <;> exact hset
      · have hpost := h.post
        cases x <;> exact hpost
      · have hused := h.used
        cases x <;> exact hused
      · rw [side_setSide]
        simp only [hpdef]
        omega
      · rw [hview]
        have hbound := h.bound
        cases x <;> exact hbound
      · rw [side_setSide, cumul]

end Stands

end Groonga.Ii.StoredCursor
