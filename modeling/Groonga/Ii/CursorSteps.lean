import Groonga.Ii.CursorView

/-!
# The steps of a cursor

What a cursor still returns is the merge of two lists: the postings of the chunks and the
records it has not used up, from its lower bound on. `next` takes the first posting off the
merge. `set_min` shortens the two lists; only a posting that the cursor already holds stays,
so that one posting below the new bound may come first.
-/

namespace Groonga.Ii.StoredCursor

open Groonga.Lib

variable (ii : Layout)

/-! ## What is left -/

/-- The postings of the chunks that have not been read. -/
def chunkRest (c : StoredCursor) : List Hit :=
  hits ii c.pc c.crp ++ (c.src.loads.drop c.currChunk).flatMap (loadHits ii)

/-- The posting of the chunks that is at hand. -/
def heldChunk (c : StoredCursor) : List Hit := if c.pc.rid = 0 then [] else [c.pc.hit ii]

def heldBuffer (c : StoredCursor) : List Hit := if c.pb.rid = 0 then [] else [c.pb.hit ii]

/-- The postings from a record id on. -/
def atLeast (min : ℕ) (l : List Hit) : List Hit := l.filter fun h => min ≤ h.docid.rid

def bufferRest (c : StoredCursor) (suf : List ℕ) : List Hit :=
  suf.map fun x => recHit ii (c.src.recs x)

/-- What the chunks still give. -/
def chunkView (c : StoredCursor) : List Hit :=
  (if c.chunkUsed then [] else heldChunk ii c) ++ atLeast c.min (chunkRest ii c)

/-- What the records `suf` still give. -/
def bufferView (c : StoredCursor) (suf : List ℕ) : List Hit :=
  (if c.bufferUsed then [] else heldBuffer ii c) ++ atLeast c.min (bufferRest ii c suf)

/-- **What the cursor still returns.** -/
def view (c : StoredCursor) (suf : List ℕ) : List Hit := merged (chunkView ii c) (bufferView ii c suf)

/-- A cursor between two calls; `suf` are the records that it has not read. What is said of the
gaps of the table counts only where chunks may be left out, for `skips`. -/
structure Inv (skips : Prop) (c : StoredCursor) (suf : List ℕ) : Prop where
  wf : c.src.WF ii
  safe : skips → c.src.SkipSafe
  chained : ∃ used pre, c.src.Chained ii used (pre ++ suf) ∧
    (c.bufferUsed = false → c.pb.rid ≠ 0 →
      ∃ pre' x, pre = pre' ++ [x] ∧ c.pb = readRec (c.src.recs x))
  nextb : Chain (fun i => (c.src.recs i).step) c.nextb suf
  suffix : (if c.chunkUsed then [] else heldChunk ii c) ++ chunkRest ii c <:+ c.src.chunkHits ii
  crp : ii.withPosition = true → ∀ e ∈ c.crp, e.pos.length = 1 + e.tf
  fresh : c.chunkUsed = false → c.pc.rid ≠ 0 → Fresh ii c.pc
  chunkDone : c.chunkUsed = false → c.pc.rid = 0 → chunkRest ii c = []
  bufferDone : c.bufferUsed = false → c.pb.rid = 0 → suf = []
  reachesPrev : skips → c.crp = [] ∧ c.chunkUsed = true ∨
    Reaches c.src (c.currChunk - 1) c.prevChunkRid
  reaches : skips → Reaches c.src c.currChunk (c.pc.rid + (c.crp.map Entry.dgap).sum)
  started : c.pc.rid ≠ 0 ∨ c.crp ≠ [] → 0 < c.currChunk

/-! ## Chunks -/

section Chunks

variable {ii} {skips : Prop} {c : StoredCursor} {suf : List ℕ}

/-- The state of the loop over the chunks. -/
structure Loading (ii : Layout) (skips : Prop) (c : StoredCursor) (ls : List (List Entry)) :
    Prop where
  wf : c.src.WF ii
  safe : skips → c.src.SkipSafe
  drop : c.src.loads.drop c.currChunk = ls
  crp : ii.withPosition = true → ∀ e ∈ c.crp, e.pos.length = 1 + e.tf
  rid_pos : ∀ h ∈ chunkRest ii c, 0 < h.docid.rid
  reachesPrev : skips → c.crp = [] ∨ Reaches c.src (c.currChunk - 1) c.prevChunkRid
  reaches : skips → Reaches c.src c.currChunk (c.pc.rid + (c.crp.map Entry.dgap).sum)
  started : c.crp ≠ [] → 0 < c.currChunk

/-- Behind all the chunks there is nothing to reach. -/
theorem reaches_of_le {s : Stored} {m rid : ℕ} (h : s.chunks.length ≤ m + 1) :
    Reaches s m rid := by
  intro mid x post hsplit hmid
  have hlen := congrArg List.length hsplit
  have := List.length_pos_iff.2 hmid
  simp only [List.length_drop, List.length_append, List.length_cons] at hlen
  omega

theorem length_chunks_le (s : Stored) : s.chunks.length ≤ s.loads.length := by
  simp [Stored.loads]

/-- What the loop over the chunks leaves. -/
structure Loaded (ii : Layout) (skips : Prop) (c c' : StoredCursor) : Prop where
  frame : ∃ pc crp k prev,
    c' = { c with pc := pc, crp := crp, currChunk := k, prevChunkRid := prev }
  rest : heldChunk ii c' ++ chunkRest ii c' =
    (chunkRest ii c).dropWhile fun h => h.docid.rid < c.min
  crp : ii.withPosition = true → ∀ e ∈ c'.crp, e.pos.length = 1 + e.tf
  fresh : c'.pc.rid ≠ 0 → Fresh ii c'.pc
  done : c'.pc.rid = 0 → chunkRest ii c' = []
  reachesPrev : skips → Reaches c'.src (c'.currChunk - 1) c'.prevChunkRid
  reaches : skips → Reaches c'.src c'.currChunk (c'.pc.rid + (c'.crp.map Entry.dgap).sum)
  started : c'.pc.rid ≠ 0 ∨ c'.crp ≠ [] → 0 < c'.currChunk

/-- The next vectors are unpacked. -/
theorem Loading.load {l : List Entry} {ls : List (List Entry)} {pc' : Internal}
    (h : Loading ii skips c (l :: ls))
    (hpc : pc'.rid = c.pc.rid + (c.crp.map Entry.dgap).sum) :
    Loading ii skips
      { c with
        prevChunkRid := pc'.rid, pc := { pc' with rid := 0, sid := 0, rest := 0 }, crp := l,
        currChunk := c.currChunk + 1 } ls ∧
    chunkRest ii { c with
        prevChunkRid := pc'.rid, pc := { pc' with rid := 0, sid := 0, rest := 0 }, crp := l,
        currChunk := c.currChunk + 1 } = (l :: ls).flatMap (loadHits ii) := by
  have hdrop : c.src.loads.drop (c.currChunk + 1) = ls := by
    rw [← List.drop_drop, h.drop]
    rfl
  have hmem : l ∈ c.src.loads := List.mem_of_mem_drop (i := c.currChunk) (by rw [h.drop]; simp)
  have hrest : chunkRest ii { c with
        prevChunkRid := pc'.rid, pc := { pc' with rid := 0, sid := 0, rest := 0 }, crp := l,
        currChunk := c.currChunk + 1 } = (l :: ls).flatMap (loadHits ii) := by
    unfold chunkRest
    dsimp only
    rw [hdrop, List.flatMap_cons]
    refine congrArg (· ++ _) ?_
    exact hits_congr rfl rfl
  refine ⟨⟨h.wf, h.safe, hdrop, fun hp => h.wf.length_pos hp l hmem, fun x hx => ?_,
    fun hs => .inr ?_, fun hs => ?_, fun _ => Nat.succ_pos _⟩, hrest⟩
  · rw [hrest] at hx
    refine h.rid_pos x ?_
    unfold chunkRest
    rw [h.drop]
    exact List.mem_append_right _ hx
  · change Reaches c.src (c.currChunk + 1 - 1) pc'.rid
    rw [hpc]
    exact h.reaches hs
  · change Reaches c.src (c.currChunk + 1) (0 + (l.map Entry.dgap).sum)
    rw [Nat.zero_add]
    by_cases hlast : c.src.chunks.length ≤ c.currChunk + 1 + 1
    · exact reaches_of_le hlast
    · intro mid x post hsplit hmid
      have hlt : c.currChunk < c.src.chunks.length := by omega
      have hl : l = c.src.chunks[c.currChunk].entries := by
        have hget : c.src.loads[c.currChunk]? = some l := by
          rw [← List.head?_drop, h.drop]
          rfl
        rw [Stored.loads, List.getElem?_append_left (by simpa using hlt), List.getElem?_map,
          List.getElem?_eq_getElem hlt] at hget
        exact (Option.some.inj hget).symm
      have hchunks : c.src.chunks = c.src.chunks.take c.currChunk ++
          c.src.chunks[c.currChunk] :: (mid ++ x :: post) := by
        rw [← hsplit, List.getElem_cons_drop, List.take_append_drop]
      have := (h.safe hs).fromChunk _ _ _ _ _ hchunks hmid
      rwa [show (c.src.chunks[c.currChunk]).lastRid = (l.map Entry.dgap).sum from by
        rw [hl]; rfl] at this

/-- A posting that is found in the vectors at hand. -/
theorem Loading.found {ls : List (List Entry)} {pc' : Internal} {es' : List Entry}
    (h : Loading ii skips c ls)
    (hdrop : (hits ii c.pc c.crp).dropWhile (fun h => h.docid.rid < c.min) =
      pc'.hit ii :: hits ii pc' es') (hfresh : Fresh ii pc') (hsuf : es' <:+ c.crp)
    (hsum : pc'.rid + (es'.map Entry.dgap).sum = c.pc.rid + (c.crp.map Entry.dgap).sum) :
    Loaded ii skips c { c with pc := pc', crp := es' } := by
  have hrest : (chunkRest ii c).dropWhile (fun h => h.docid.rid < c.min) =
      pc'.hit ii :: hits ii pc' es' ++ (c.src.loads.drop c.currChunk).flatMap (loadHits ii) := by
    unfold chunkRest
    rw [List.dropWhile_append, hdrop]
    rfl
  have hpos : pc'.rid ≠ 0 := by
    have hmem : pc'.hit ii ∈ chunkRest ii c := by
      refine (List.dropWhile_sublist fun h => decide (h.docid.rid < c.min)).subset ?_
      rw [hrest]
      simp
    have := h.rid_pos _ hmem
    simp only [Internal.hit] at this
    omega
  have hcrp : c.crp ≠ [] := by
    intro hnil
    rw [hnil] at hdrop
    cases hdrop
  refine ⟨⟨_, _, _, _, rfl⟩, ?_, fun hp e he => h.crp hp e (hsuf.subset he), fun _ => hfresh,
    fun h0 => absurd h0 hpos, fun hs => (h.reachesPrev hs).resolve_left hcrp, fun hs => ?_,
    fun _ => h.started hcrp⟩
  · rw [hrest]
    simp [heldChunk, hpos, chunkRest]
  · dsimp only
    rw [hsum]
    exact h.reaches hs

/-- **The loop over the chunks** goes to the first posting from `min` on. -/
theorem chunkLoop_spec {ls : List (List Entry)} (h : Loading ii skips c ls) :
    Loaded ii skips c (chunkLoop ii c ls) := by
  induction ls generalizing c with
  | nil =>
    rw [chunkLoop]
    rcases @scan_spec ii c.pc c.crp c.min h.crp with
      ⟨pc', es', hscan, hdrop, hmin, hfresh, hsuf, hsum⟩ | ⟨pc', es', hscan, hdrop, hsum⟩
    · rw [hscan]
      exact h.found hdrop hfresh hsuf hsum
    · rw [hscan]
      have hlast : c.src.chunks.length ≤ c.currChunk :=
        (length_chunks_le c.src).trans (List.drop_eq_nil_iff.1 h.drop)
      have hnil : ∀ c' : StoredCursor, c'.src = c.src → c'.currChunk = c.currChunk →
          c'.crp = [] → chunkRest ii c' = [] := fun c' h1 h2 h3 => by
        unfold chunkRest
        rw [h1, h2, h3, h.drop]
        rfl
      have hend := hnil { c with pc := { pc' with rid := 0 }, crp := [] } rfl rfl rfl
      refine ⟨⟨_, _, _, _, rfl⟩, ?_, by simp, fun h0 => absurd rfl h0, fun _ => hend,
        fun _ => reaches_of_le (by dsimp only; omega),
        fun _ => reaches_of_le (by dsimp only; omega), by simp⟩
      rw [hend]
      unfold chunkRest
      rw [h.drop, List.flatMap_nil, List.append_nil, List.append_nil, hdrop]
      rfl
  | cons l ls ih =>
    rw [chunkLoop]
    rcases @scan_spec ii c.pc c.crp c.min h.crp with
      ⟨pc', es', hscan, hdrop, hmin, hfresh, hsuf, hsum⟩ | ⟨pc', es', hscan, hdrop, hsum⟩
    · rw [hscan]
      exact h.found hdrop hfresh hsuf hsum
    · rw [hscan]
      obtain ⟨hload, hrest⟩ := h.load hsum
      have hloaded := ih hload
      refine { hloaded with frame := ?_, rest := ?_ }
      · obtain ⟨pc, crp, k, prev, hframe⟩ := hloaded.frame
        exact ⟨pc, crp, k, prev, hframe⟩
      · refine hloaded.rest.trans ?_
        rw [hrest]
        unfold chunkRest
        rw [h.drop, List.dropWhile_append, hdrop]
        rfl

/-- **Asking the chunks for a posting.** -/
theorem nextInChunk_spec (h : Inv ii skips c suf) (hused : c.chunkUsed = true) :
    Loaded ii skips c (nextInChunk ii c) := by
  refine chunkLoop_spec ⟨h.wf, h.safe, rfl, h.crp, fun x hx => ?_,
    fun hs => (h.reachesPrev hs).imp_left And.left, h.reaches, fun hne => h.started (.inr hne)⟩
  refine h.wf.rid_pos x (h.suffix.subset ?_)
  rw [hused]
  simpa using hx

end Chunks

/-! ## Records -/

section Records

variable {ii} {skips : Prop} {c : StoredCursor} {suf pre : List ℕ} {used : Set ℕ}

theorem sorted_records {s : Stored} (h : s.Chained ii used (pre ++ suf)) :
    Sorted (suf.map fun x => recHit ii (s.recs x)) := by
  have hsorted := (List.pairwise_append.1 h.skip.sorted).2.1
  exact List.pairwise_map.2 hsorted

/-- What asking the buffer for a record leaves. -/
structure Sought (ii : Layout) (c c' : StoredCursor) (suf suf' : List ℕ) : Prop where
  frame : ∃ pb nextb, c' = { c with pb := pb, nextb := nextb }
  rest : heldBuffer ii c' ++ bufferRest ii c' suf' =
    (bufferRest ii c suf).dropWhile fun h => h.docid.rid < c.min
  chained : ∃ used pre, c'.src.Chained ii used (pre ++ suf') ∧
    (c'.pb.rid ≠ 0 → ∃ pre' x, pre = pre' ++ [x] ∧ c'.pb = readRec (c'.src.recs x))
  nextb : Chain (fun i => (c'.src.recs i).step) c'.nextb suf'
  done : c'.pb.rid = 0 → suf' = []

/-- **Asking the buffer for a record.** -/
theorem nextInBuffer_spec (hchained : c.src.Chained ii used (pre ++ suf))
    (hnextb : Chain (fun i => (c.src.recs i).step) c.nextb suf) :
    ∃ c' suf', nextInBuffer c = some c' ∧ Sought ii c c' suf suf' := by
  have hlen : suf.length < 2 ^ 16 + 1 := by
    have := hchained.length_le
    rw [List.length_append] at this
    omega
  have hseek := @WriteBuffer.seek_eq _ _ _ c.min _ _ _ _ hchained.skip hnextb hlen
  have hmap : (bufferRest ii c suf).dropWhile (fun h => h.docid.rid < c.min) =
      (suf.dropWhile fun x => (c.src.recs x).docid.rid < c.min).map
        fun x => recHit ii (c.src.recs x) := by
    unfold bufferRest
    rw [List.dropWhile_map]
    rfl
  have hsplit := List.takeWhile_append_dropWhile (l := suf)
    (p := fun x => decide ((c.src.recs x).docid.rid < c.min))
  unfold nextInBuffer
  rw [hseek]
  cases hdrop : suf.dropWhile fun x => decide ((c.src.recs x).docid.rid < c.min) with
  | nil =>
    refine ⟨{ c with nextb := 0, pb := { c.pb with rid := 0 } }, [], rfl, ⟨_, _, rfl⟩, ?_, ?_, rfl,
      fun _ => rfl⟩
    · rw [hmap, hdrop]
      rfl
    · refine ⟨used, pre ++ suf, ?_, fun h0 => absurd rfl h0⟩
      rw [List.append_nil]
      exact hchained
  | cons r suf' =>
    rw [hdrop] at hsplit
    set mid := suf.takeWhile fun x => decide ((c.src.recs x).docid.rid < c.min) with hmid
    have hr : r ∈ pre ++ suf := by
      rw [← hsplit]
      simp
    have hr0 : r ≠ 0 := hchained.skip.chain.ne_zero hr
    have hchain : Chain (fun i => (c.src.recs i).step) (c.src.recs r).step suf' := by
      have hall := hchained.skip.chain
      rw [← hsplit, ← List.append_assoc] at hall
      exact (hall.drop).2.2
    have hrid : (c.src.recs r).docid.rid ≠ 0 := by
      have := hchained.rid_pos r hr
      omega
    refine ⟨{ c with nextb := (c.src.recs r).step, pb := readRec (c.src.recs r) }, suf',
      by simp [hr0], ⟨_, _, rfl⟩, ?_, ?_, hchain, fun h0 => absurd h0 hrid⟩
    · rw [hmap, hdrop]
      have hheld : heldBuffer ii { c with
          nextb := (c.src.recs r).step, pb := readRec (c.src.recs r) } =
          [recHit ii (c.src.recs r)] := if_neg hrid
      rw [hheld]
      rfl
    · refine ⟨used, (pre ++ mid) ++ [r], ?_, fun _ => ⟨pre ++ mid, r, rfl, rfl⟩⟩
      have hassoc : ((pre ++ mid) ++ [r]) ++ suf' = pre ++ suf := by
        rw [← hsplit]
        simp
      rw [hassoc]
      exact hchained

end Records

/-! ## The two postings at hand -/

section Hold

variable {ii} {skips : Prop} {c : StoredCursor} {suf : List ℕ}

/-- The cursor with both of its postings at hand. -/
def hold (c : StoredCursor) : StoredCursor := { c with chunkUsed := false, bufferUsed := false }

/-- The postings that a cursor has not used up. -/
def size (ii : Layout) (c : StoredCursor) (suf : List ℕ) : ℕ :=
  ((if c.chunkUsed then [] else heldChunk ii c) ++ chunkRest ii c).length +
    ((if c.bufferUsed then [] else heldBuffer ii c) ++ bufferRest ii c suf).length

theorem atLeast_of_forall {min : ℕ} {l : List Hit} (h : ∀ x ∈ l, min ≤ x.docid.rid) :
    atLeast min l = l := List.filter_eq_self.2 fun x hx => decide_eq_true (h x hx)

theorem le_of_mem_dropWhile {min : ℕ} {l : List Hit} (h : Sorted l) {x : Hit}
    (hx : x ∈ l.dropWhile fun h => h.docid.rid < min) : min ≤ x.docid.rid := by
  rw [h.dropWhile_eq_filter] at hx
  simpa using (List.mem_filter.1 hx).2

/-- The posting of the chunks is at hand. -/
structure ChunkFilled (ii : Layout) (skips : Prop) (c c' : StoredCursor) : Prop where
  frame : ∃ pc crp k prev,
    c' = { c with pc := pc, crp := crp, currChunk := k, prevChunkRid := prev }
  suffix : heldChunk ii c' ++ chunkRest ii c' <:+ c'.src.chunkHits ii
  crp : ii.withPosition = true → ∀ e ∈ c'.crp, e.pos.length = 1 + e.tf
  fresh : c'.pc.rid ≠ 0 → Fresh ii c'.pc
  done : c'.pc.rid = 0 → chunkRest ii c' = []
  reachesPrev : skips → Reaches c'.src (c'.currChunk - 1) c'.prevChunkRid
  reaches : skips → Reaches c'.src c'.currChunk (c'.pc.rid + (c'.crp.map Entry.dgap).sum)
  started : c'.pc.rid ≠ 0 ∨ c'.crp ≠ [] → 0 < c'.currChunk
  view : heldChunk ii c' ++ atLeast c'.min (chunkRest ii c') = chunkView ii c
  length_le : (heldChunk ii c' ++ chunkRest ii c').length ≤
    ((if c.chunkUsed then [] else heldChunk ii c) ++ chunkRest ii c).length

theorem chunkFilled (h : Inv ii skips c suf) :
    ChunkFilled ii skips c (if c.chunkUsed then nextInChunk ii c else c) := by
  have hsuffix := h.suffix
  cases hused : c.chunkUsed with
  | false =>
    rw [hused] at hsuffix
    refine ⟨⟨_, _, _, _, rfl⟩, hsuffix, h.crp, h.fresh hused, h.chunkDone hused,
      fun hs => (h.reachesPrev hs).resolve_left fun hn => ?_, h.reaches, h.started, ?_, ?_⟩
    · rw [hused] at hn
      exact absurd hn.2 (by simp)
    · unfold chunkView
      rw [hused]
      rfl
    · rw [hused]
      exact le_rfl
  | true =>
    rw [hused] at hsuffix
    simp only [if_true, List.nil_append] at hsuffix ⊢
    have hl := nextInChunk_spec h hused
    obtain ⟨pc, crp, k, prev, hframe⟩ := hl.frame
    have hsorted : Sorted (chunkRest ii c) := h.wf.sorted.sublist hsuffix.sublist
    have hmin : (nextInChunk ii c).min = c.min := by rw [hframe]
    have hsrc : (nextInChunk ii c).src = c.src := by rw [hframe]
    refine ⟨hl.frame, ?_, hl.crp, hl.fresh, hl.done, hl.reachesPrev, hl.reaches, hl.started,
      ?_, ?_⟩
    · rw [hl.rest, hsrc]
      exact (List.dropWhile_suffix _).trans hsuffix
    · rw [atLeast_of_forall (l := chunkRest ii (nextInChunk ii c)) fun x hx => ?_, hl.rest,
        hsorted.dropWhile_eq_filter]
      · unfold chunkView
        rw [hused]
        rfl
      · rw [hmin]
        refine le_of_mem_dropWhile hsorted ?_
        rw [← hl.rest]
        exact List.mem_append_right _ hx
    · rw [hl.rest, hused]
      exact (List.dropWhile_sublist _).length_le

/-- The record is at hand. -/
structure BufferFilled (ii : Layout) (c c' : StoredCursor) (suf suf' : List ℕ) : Prop where
  frame : ∃ pb nextb, c' = { c with pb := pb, nextb := nextb }
  chained : ∃ used pre, c'.src.Chained ii used (pre ++ suf') ∧
    (c'.pb.rid ≠ 0 → ∃ pre' x, pre = pre' ++ [x] ∧ c'.pb = readRec (c'.src.recs x))
  nextb : Chain (fun i => (c'.src.recs i).step) c'.nextb suf'
  done : c'.pb.rid = 0 → suf' = []
  view : heldBuffer ii c' ++ atLeast c'.min (bufferRest ii c' suf') = bufferView ii c suf
  length_le : (heldBuffer ii c' ++ bufferRest ii c' suf').length ≤
    ((if c.bufferUsed then [] else heldBuffer ii c) ++ bufferRest ii c suf).length

theorem bufferFilled (hchained : ∃ used pre, c.src.Chained ii used (pre ++ suf) ∧
      (c.bufferUsed = false → c.pb.rid ≠ 0 →
        ∃ pre' x, pre = pre' ++ [x] ∧ c.pb = readRec (c.src.recs x)))
    (hnextb : Chain (fun i => (c.src.recs i).step) c.nextb suf)
    (hdone : c.bufferUsed = false → c.pb.rid = 0 → suf = []) :
    ∃ c' suf', (if c.bufferUsed then nextInBuffer c else some c) = some c' ∧
      BufferFilled ii c c' suf suf' := by
  obtain ⟨used, pre, hchained, hheld⟩ := hchained
  cases hused : c.bufferUsed with
  | false =>
    refine ⟨c, suf, rfl, ⟨_, _, rfl⟩, ⟨used, pre, hchained, hheld hused⟩, hnextb,
      hdone hused, ?_, ?_⟩
    · unfold bufferView
      rw [hused]
      rfl
    · rw [hused]
      exact le_rfl
  | true =>
    obtain ⟨c', suf', hrun, hs⟩ := nextInBuffer_spec hchained hnextb
    obtain ⟨pb, nextb, hframe⟩ := hs.frame
    have hsorted : Sorted (bufferRest ii c suf) := sorted_records hchained
    have hmin : c'.min = c.min := by rw [hframe]
    refine ⟨c', suf', hrun, hs.frame, hs.chained, hs.nextb, hs.done, ?_, ?_⟩
    · rw [atLeast_of_forall (l := bufferRest ii c' suf') fun x hx => ?_, hs.rest,
        hsorted.dropWhile_eq_filter]
      · unfold bufferView
        rw [hused]
        rfl
      · rw [hmin]
        refine le_of_mem_dropWhile hsorted ?_
        rw [← hs.rest]
        exact List.mem_append_right _ hx
    · rw [hs.rest, hused]
      exact (List.dropWhile_sublist _).length_le

/-- What is known of a cursor with a posting of the chunks at hand does not depend on the
record. -/
theorem Inv.of_filled {c₁ c₂ : StoredCursor} {suf' : List ℕ} (h : Inv ii skips c suf)
    (hc : ChunkFilled ii skips c c₁) (hb : BufferFilled ii c₁ c₂ suf suf') : Inv ii skips c₂.hold suf' := by
  obtain ⟨pc, crp, k, prev, rfl⟩ := hc.frame
  obtain ⟨pb, nextb, rfl⟩ := hb.frame
  exact {
    wf := h.wf
    safe := h.safe
    chained := by
      obtain ⟨used, pre, hchained, hheld⟩ := hb.chained
      exact ⟨used, pre, hchained, fun _ => hheld⟩
    nextb := hb.nextb
    suffix := hc.suffix
    crp := hc.crp
    fresh := fun _ => hc.fresh
    chunkDone := fun _ => hc.done
    bufferDone := fun _ => hb.done
    reachesPrev := fun hs => .inr (hc.reachesPrev hs)
    reaches := hc.reaches
    started := hc.started }

/-- **Both places are asked** as far as their postings were used up. -/
theorem refill_spec (h : Inv ii skips c suf) :
    ∃ c' suf', refill ii c = some c' ∧ Inv ii skips c'.hold suf' ∧ c'.src = c.src ∧ c'.min = c.min ∧
      view ii c'.hold suf' = view ii c suf ∧ size ii c'.hold suf' ≤ size ii c suf := by
  have hc := chunkFilled h
  set c₁ := if c.chunkUsed then nextInChunk ii c else c with hc₁
  obtain ⟨pc, crp, k, prev, hframe⟩ := hc.frame
  obtain ⟨c₂, suf', hrun, hb⟩ := @bufferFilled ii c₁ suf
    (by rw [hframe]; exact h.chained) (by rw [hframe]; exact h.nextb)
    (by rw [hframe]; exact h.bufferDone)
  obtain ⟨pb, nextb, hframe₂⟩ := hb.frame
  have hview : bufferView ii c₁ suf = bufferView ii c suf := by rw [hframe]; rfl
  refine ⟨c₂, suf', ?_, h.of_filled hc hb, ?_, ?_, ?_, ?_⟩
  · unfold refill
    rw [← hc₁]
    exact hrun
  · rw [hframe₂, hframe]
  · rw [hframe₂, hframe]
  · unfold view
    rw [← hview, ← hb.view, ← hc.view, hframe₂]
    rfl
  · unfold size
    refine Nat.add_le_add ?_ ?_
    · refine le_trans (le_of_eq ?_) hc.length_le
      rw [hframe₂]
      rfl
    · refine hb.length_le.trans (le_of_eq ?_)
      rw [hframe]
      rfl

end Hold

/-! ## One posting after another -/

section Next

variable {ii} {skips : Prop} {c : StoredCursor} {suf : List ℕ}

/-- The cursor after a choice. -/
def take (c : StoredCursor) (d : Choice) (post : Option Side) : StoredCursor :=
  { c with
    chunkUsed := d.chunkUsed, bufferUsed := d.bufferUsed, solePosUsed := false, post := post }

/-- One of the two postings. -/
def side (c : StoredCursor) : Side → Internal
  | .chunk => c.pc
  | .buffer => c.pb

/-- Whether the posting at a side is used up. -/
def usedUp (c : StoredCursor) : Side → Bool
  | .chunk => c.chunkUsed
  | .buffer => c.bufferUsed

theorem or_of_usedUp {x : Side} (h : c.usedUp x = true) :
    c.chunkUsed = true ∨ c.bufferUsed = true := by
  cases x with
  | chunk => exact .inl h
  | buffer => exact .inr h

/-- A posting that is used up is not at hand any more. -/
theorem Inv.take (h : Inv ii skips c.hold suf) (d : Choice) (post : Option Side) :
    Inv ii skips (c.take d post) suf where
  wf := h.wf
  safe := h.safe
  chained := by
    obtain ⟨used, pre, hchained, hheld⟩ := h.chained
    exact ⟨used, pre, hchained, fun _ => hheld rfl⟩
  nextb := h.nextb
  suffix := by
    have hs : heldChunk ii c ++ chunkRest ii c <:+ c.src.chunkHits ii := h.suffix
    cases hd : d.chunkUsed with
    | false =>
      change (if d.chunkUsed = true then [] else heldChunk ii c) ++ chunkRest ii c <:+ _
      rw [hd]
      exact hs
    | true =>
      change (if d.chunkUsed = true then [] else heldChunk ii c) ++ chunkRest ii c <:+ _
      rw [hd]
      exact (List.suffix_append _ _).trans hs
  crp := h.crp
  fresh := fun _ => h.fresh rfl
  chunkDone := fun _ => h.chunkDone rfl
  bufferDone := fun _ => h.bufferDone rfl
  reachesPrev := fun hs => .inr ((h.reachesPrev hs).resolve_left fun hn => by cases hn.2)
  reaches := h.reaches
  started := h.started

/-- What a choice means for the rest. -/
structure Chosen (ii : Layout) (c : StoredCursor) (suf : List ℕ) (d : Choice) : Prop where
  size_lt : ∀ post, size ii (c.take d post) suf < size ii c.hold suf
  returned : ∀ x, d.post = some x →
    (∀ post, view ii c.hold suf = (c.side x).hit ii :: view ii (c.take d post) suf) ∧
      (c.side x).rid ≠ 0 ∧ (x = .chunk → d.chunkUsed = true) ∧ (x = .buffer → d.bufferUsed = true)
  dropped : d.post = none → ∀ post, view ii c.hold suf = view ii (c.take d post) suf

theorem visible_hit (p : Internal) : (p.hit ii).visible = visible p := rfl

theorem size_take_lt {d : Choice} (post : Option Side)
    (hused : (d.chunkUsed = true ∧ c.pc.rid ≠ 0) ∨ (d.bufferUsed = true ∧ c.pb.rid ≠ 0)) :
    size ii (c.take d post) suf < size ii c.hold suf := by
  change ((if d.chunkUsed = true then [] else heldChunk ii c) ++ chunkRest ii c).length +
      ((if d.bufferUsed = true then [] else heldBuffer ii c) ++ bufferRest ii c suf).length <
    (heldChunk ii c ++ chunkRest ii c).length + (heldBuffer ii c ++ bufferRest ii c suf).length
  have hc : ((if d.chunkUsed = true then [] else heldChunk ii c) ++ chunkRest ii c).length ≤
      (heldChunk ii c ++ chunkRest ii c).length := by
    split_ifs
    · simp
    · exact le_rfl
  have hb : ((if d.bufferUsed = true then [] else heldBuffer ii c) ++
      bufferRest ii c suf).length ≤ (heldBuffer ii c ++ bufferRest ii c suf).length := by
    split_ifs
    · simp
    · exact le_rfl
  rcases hused with ⟨hd, hrid⟩ | ⟨hd, hrid⟩
  · refine Nat.add_lt_add_of_lt_of_le ?_ hb
    simp [hd, heldChunk, hrid]
  · refine Nat.add_lt_add_of_le_of_lt hc ?_
    simp [hd, heldBuffer, hrid]

/-- A posting that is used up and, if it is no mark, returned. -/
theorem chosen_emit {cu bu : Bool} {x : Side} (hrid : (c.side x).rid ≠ 0)
    (hc : x = .chunk → cu = true) (hb : x = .buffer → bu = true)
    (hview : view ii c.hold suf = emit ((c.side x).hit ii)
      (merged ((if cu then [] else heldChunk ii c) ++ atLeast c.min (chunkRest ii c))
        ((if bu then [] else heldBuffer ii c) ++ atLeast c.min (bufferRest ii c suf)))) :
    Chosen ii c suf ⟨cu, bu, if visible (c.side x) then some x else none⟩ := by
  refine ⟨fun post => size_take_lt post ?_, fun y hy => ?_, fun hnone post => ?_⟩
  · cases x with
    | chunk => exact .inl ⟨hc rfl, hrid⟩
    | buffer => exact .inr ⟨hb rfl, hrid⟩
  · dsimp only at hy
    split_ifs at hy with hv
    cases hy
    refine ⟨fun post => ?_, hrid, hc, hb⟩
    rw [hview, emit, visible_hit, if_pos hv]
    rfl
  · dsimp only at hnone
    split_ifs at hnone with hv
    rw [hview, emit, visible_hit, if_neg hv]
    rfl

theorem filter_visible_cons {h : Hit} {l : List Hit} :
    (h :: l).filter Hit.visible = emit h (l.filter Hit.visible) := by
  unfold emit
  cases hv : h.visible with
  | false => exact List.filter_cons_of_neg (by simp [hv])
  | true => exact List.filter_cons_of_pos hv

/-- **The choice between the two postings** is a step of the merge. -/
theorem choose_spec (h : Inv ii skips c.hold suf) :
    (choose c.pc c.pb = none ∧ view ii c.hold suf = []) ∨
      ∃ d, choose c.pc c.pb = some d ∧ Chosen ii c suf d := by
  have hdoneC : c.pc.rid = 0 → chunkRest ii c = [] := h.chunkDone rfl
  have hdoneB : c.pb.rid = 0 → suf = [] := h.bufferDone rfl
  have hview : view ii c.hold suf = merged (heldChunk ii c ++ atLeast c.min (chunkRest ii c))
      (heldBuffer ii c ++ atLeast c.min (bufferRest ii c suf)) := rfl
  unfold choose
  by_cases hb : c.pb.rid = 0
  · have hheldB : heldBuffer ii c = [] := if_pos hb
    have hrestB : atLeast c.min (bufferRest ii c suf) = [] := by
      rw [hdoneB hb]
      rfl
    rw [if_neg (not_not.2 hb)]
    by_cases hc : c.pc.rid = 0
    · refine .inl ⟨by rw [if_neg (not_not.2 hc)], ?_⟩
      rw [hview, hheldB, hrestB, heldChunk, if_pos hc, hdoneC hc]
      exact merged_nil_left
    · refine .inr ⟨_, by rw [if_pos hc]; rfl,
        @chosen_emit ii c suf true false .chunk hc (fun _ => rfl) (by simp) ?_⟩
      rw [hview, heldChunk, if_neg hc, hheldB, hrestB]
      simp only [List.append_nil, if_true, List.nil_append, merged_nil_right,
        List.singleton_append, filter_visible_cons, ite_self]
      rfl
  · have hheldB : heldBuffer ii c = [c.pb.hit ii] := if_neg hb
    rw [if_pos hb]
    by_cases hc : c.pc.rid = 0
    · have hheldC : heldChunk ii c = [] := if_pos hc
      refine .inr ⟨_, by rw [if_neg (not_not.2 hc)]; rfl,
        @chosen_emit ii c suf false true .buffer hb (by simp) (fun _ => rfl) ?_⟩
      rw [hview, hheldB, hheldC, hdoneC hc]
      simp only [atLeast, List.filter_nil, List.append_nil, if_true, List.nil_append,
        merged_nil_left, List.singleton_append, filter_visible_cons, ite_self]
      rfl
    · rw [if_pos hc]
      have hheldC : heldChunk ii c = [c.pc.hit ii] := if_neg hc
      rw [hheldC, hheldB, List.singleton_append, List.singleton_append] at hview
      have hchunk : c.pc.rid < c.pb.rid ∨ c.pc.rid = c.pb.rid ∧ c.pc.sid < c.pb.sid →
          Chosen ii c suf ⟨true, false, if visible c.pc then some .chunk else none⟩ := by
        intro hlt
        refine @chosen_emit ii c suf true false .chunk hc (fun _ => rfl) (by simp) ?_
        rw [hview, merged_chunk (Docid.lt_def.2 hlt), hheldB]
        rfl
      have hvis : c.pb.sid ≠ 0 → (if visible (c.side .buffer) then some Side.buffer else none) =
          if c.pb.tf ≠ 0 then some Side.buffer else none := fun h0 => by
        by_cases htf : c.pb.tf = 0 <;> simp [side, visible, h0, htf]
      rcases merge_cases (c.pc.hit ii) (c.pb.hit ii) with hlt | ⟨hlt, hne⟩ | ⟨heq, h0⟩ | ⟨heq, h0⟩
      · have hlt' : c.pc.rid < c.pb.rid ∨ c.pc.rid = c.pb.rid ∧ c.pc.sid < c.pb.sid :=
          Docid.lt_def.1 hlt
        refine .inr ⟨_, ?_, hchunk hlt'⟩
        rcases hlt' with hrid | ⟨hrid, hsid⟩
        · rw [if_pos hrid]
        · rw [if_neg (by omega), if_neg (by omega), if_pos (by omega), if_pos hsid]
      · have hlt' : c.pb.rid < c.pc.rid ∨ c.pb.rid = c.pc.rid ∧ c.pb.sid < c.pc.sid :=
          Docid.lt_def.1 hlt
        have hne' : c.pb.sid ≠ 0 ∨ c.pc.rid ≠ c.pb.rid := hne
        have hchosen : Chosen ii c suf
            ⟨false, true, if visible (c.side .buffer) then some .buffer else none⟩ := by
          refine chosen_emit hb (by simp) (fun _ => rfl) ?_
          rw [hview, merged_buffer hlt hne, hheldC]
          rfl
        refine .inr ⟨_, ?_, hchosen⟩
        rcases hlt' with hrid | ⟨hrid, hsid⟩
        · rw [if_neg (by omega), if_pos hrid]
          rfl
        · have hsid0 : c.pb.sid ≠ 0 := by omega
          have hsame : ¬ c.pb.sid = c.pc.sid := by omega
          rw [if_neg (by omega), if_neg (by omega), if_pos hsid0, if_neg (by omega)]
          rw [decide_eq_false hsame, hvis hsid0]
      · have heq' : c.pc.rid = c.pb.rid ∧ c.pc.sid = c.pb.sid := by
          simpa [Internal.hit] using heq
        have hsid0 : c.pb.sid ≠ 0 := h0
        have hchosen : Chosen ii c suf
            ⟨true, true, if visible (c.side .buffer) then some .buffer else none⟩ := by
          refine chosen_emit hb (fun _ => rfl) (fun _ => rfl) ?_
          rw [hview, merged_same heq h0]
          rfl
        refine .inr ⟨_, ?_, hchosen⟩
        rw [if_neg (by omega), if_neg (by omega), if_pos hsid0, if_neg (by omega)]
        rw [decide_eq_true heq'.2.symm, hvis hsid0]
      · have heq' : c.pc.rid = c.pb.rid := heq
        have hsid0 : c.pb.sid = 0 := h0
        refine .inr ⟨⟨true, false, none⟩, ?_, fun post => size_take_lt post (.inl ⟨rfl, hc⟩),
          by simp, fun _ post => ?_⟩
        · rw [if_neg (by omega), if_neg (by omega), if_neg (not_not.2 hsid0)]
        · rw [hview, merged_shadowed heq h0]
          rw [← List.singleton_append, ← hheldB]
          rfl

theorem length_posGaps (p : ℕ) (ps : List ℕ) : (WriteBuffer.posGaps p ps).length = ps.length := by
  induction ps generalizing p with
  | nil => rfl
  | cons q ps ih => rw [WriteBuffer.posGaps, List.length_cons, List.length_cons, ih]

/-- Nothing has been read of the postings at hand. -/
theorem Inv.fresh_side (h : Inv ii skips c.hold suf) {x : Side} (hrid : (c.side x).rid ≠ 0) :
    Fresh ii (c.side x) := by
  cases x with
  | chunk => exact h.fresh rfl hrid
  | buffer =>
    obtain ⟨used, pre, hchained, hheld⟩ := h.chained
    obtain ⟨pre', r, rfl, hpb⟩ := hheld rfl hrid
    have hpb' : c.pb = readRec (c.src.recs r) := hpb
    change Fresh ii c.pb
    rw [hpb']
    refine ⟨rfl, rfl, fun hp => ?_⟩
    change (WriteBuffer.posGaps 0 _).length = _
    rw [length_posGaps]
    exact hchained.length_pos hp r (by simp)

/-- What `set_min` relies on: from the chunk before, the gaps reach the ends of the chunks. It
does not hold between opening a cursor with a lower bound and its first posting. -/
def Settled (skips : Prop) (c : StoredCursor) : Prop :=
  skips → c.pc.rid ≠ 0 → Reaches c.src (c.currChunk - 1) c.prevChunkRid

/-- What `next` leaves when it returns the posting at the side `x`. -/
structure Returned (ii : Layout) (skips : Prop) (c c' : StoredCursor) (suf suf' : List ℕ)
    (x : Side) : Prop where
  inv : Inv ii skips c' suf'
  settled : Settled skips c'
  src : c'.src = c.src
  min_eq : c'.min = c.min
  post : c'.post = some x
  fresh : Fresh ii (c'.side x)
  solePos : c'.solePosUsed = false
  rid_ne : (c'.side x).rid ≠ 0
  used : c'.usedUp x = true
  view : view ii c suf = (c'.side x).hit ii :: view ii c' suf'
  size_lt : size ii c' suf' < size ii c suf

/-- **The next posting** is the first one of what the cursor still returns. -/
theorem nextLoop_spec {fuel : ℕ} (h : Inv ii skips c suf) (hfuel : size ii c suf < fuel) :
    (nextLoop ii fuel c = some none ∧ view ii c suf = []) ∨
      ∃ c' suf' x, nextLoop ii fuel c = some (some c') ∧ Returned ii skips c c' suf suf' x := by
  induction fuel generalizing c suf with
  | zero => omega
  | succ fuel ih =>
    obtain ⟨c₁, suf₁, hrun, hinv, hsrc, hmin, hview, hsize⟩ := refill_spec h
    rw [nextLoop, hrun]
    simp only [Option.bind_eq_bind, Option.bind_some]
    rcases choose_spec hinv with ⟨hnone, hempty⟩ | ⟨d, hd, hchosen⟩
    · rw [hnone]
      exact .inl ⟨rfl, hview ▸ hempty⟩
    · rw [hd]
      dsimp only
      cases hpost : d.post with
      | some x =>
        obtain ⟨hret, hrid, hc, hb⟩ := hchosen.returned x hpost
        refine .inr ⟨c₁.take d (some x), suf₁, x, rfl, {
          inv := hinv.take d _
          settled := fun hs _ => (hinv.reachesPrev hs).resolve_left fun hn => by cases hn.2
          src := hsrc
          min_eq := hmin
          post := rfl
          fresh := ?_
          solePos := rfl
          rid_ne := ?_
          used := ?_
          view := ?_
          size_lt := (hchosen.size_lt (some x)).trans_le hsize }⟩
        · have hfresh := hinv.fresh_side hrid
          cases x <;> exact hfresh
        · cases x <;> exact hrid
        · cases x with
          | chunk => exact hc rfl
          | buffer => exact hb rfl
        · rw [← hview, hret (some x)]
          cases x <;> rfl
      | none =>
        have hlt := (hchosen.size_lt c₁.post).trans_le hsize
        have hv : view ii c suf = view ii (c₁.take d c₁.post) suf₁ := by
          rw [← hview]
          exact hchosen.dropped hpost c₁.post
        rcases ih (hinv.take d c₁.post) (by omega) with ⟨hnone, hnil⟩ | ⟨c', suf', x, hnext, hr⟩
        · exact .inl ⟨hnone, hv.trans hnil⟩
        · exact .inr ⟨c', suf', x, hnext, { hr with
            src := hr.src.trans hsrc
            min_eq := hr.min_eq.trans hmin
            view := hv.trans hr.view
            size_lt := hr.size_lt.trans hlt }⟩

end Next

end Groonga.Ii.StoredCursor
